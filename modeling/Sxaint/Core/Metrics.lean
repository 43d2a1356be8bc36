/-
# Transfer metrics

The byte counter behind the progress display. The speed and the remaining time
are computed from the clock in floating point and are left out: nothing in the
transfer reads them back. The line of the display takes them as texts. Its bar is
drawn for a percentage that is hardly out of range and for no other.
-/

import Mathlib.Algebra.Ring.Int.Defs
import Sxaint.Bytes.Decimal

namespace Sxaint.Core

/-- A metrics object. `object` tells apart the objects a session allocates one
after another, as their addresses do. -/
structure TransferMetrics where
  object : ℕ
  totalBytes : UInt64
  bytesTransferred : UInt64 := 0
  deriving DecidableEq, Repr

namespace TransferMetrics

/-- Count bytes that were stored or sent. -/
def addBytes (metrics : TransferMetrics) (bytes : UInt64) : TransferMetrics :=
  { metrics with bytesTransferred := metrics.bytesTransferred + bytes }

/-- The percentage, multiplied and divided in 64 bits and cut to an `int`. -/
def getProgressPer (metrics : TransferMetrics) : Int :=
  if metrics.totalBytes = 0 then 100
  else
    (BitVec.ofNat 32 ((metrics.bytesTransferred * 100) / metrics.totalBytes).toNat).toInt

@[simp]
theorem addBytes_object (metrics : TransferMetrics) (bytes : UInt64) :
    (metrics.addBytes bytes).object = metrics.object := rfl

@[simp]
theorem addBytes_totalBytes (metrics : TransferMetrics) (bytes : UInt64) :
    (metrics.addBytes bytes).totalBytes = metrics.totalBytes := rfl

/-! ## The line of the display -/

/-- `std::string(count, fill)` for an `int`. A negative one is the size of no string
and throws. -/
def filled (count : Int) (fill : UInt8) : Option (List UInt8) :=
  if 0 ≤ count then some (List.replicate count.toNat fill) else none

/-- The bar; nothing if the product has no defined value or a part throws. -/
def drawBar (percent : Int) : Option (List UInt8) :=
  let product := percent * 40
  if -2 ^ 31 ≤ product ∧ product < 2 ^ 31 then do
    let bars := product.tdiv 100
    let done ← filled bars 0x3D
    let blank ← filled (40 - bars) 0x20
    some (done ++ blank)
  else none

/-- The values of the line in their order. -/
structure UiString where
  bar : List UInt8
  percent : Int
  speed : List UInt8
  eta : List UInt8
  deriving DecidableEq, Repr

/-- They are set into `[{}] {}% | {:.1f} MB/s | ETA: {}`. -/
def UiString.text (ui : UiString) : List UInt8 :=
  let sign : List UInt8 := if ui.percent < 0 then [0x2D] else []
  0x5B :: ui.bar ++ [0x5D, 0x20] ++ sign ++ Decimal.encode ui.percent.natAbs ++
    [0x25, 0x20, 0x7C, 0x20] ++ ui.speed ++
    [0x20, 0x4D, 0x42, 0x2F, 0x73, 0x20, 0x7C, 0x20, 0x45, 0x54, 0x41, 0x3A, 0x20] ++ ui.eta

/-- `get_ui_string`, with the speed and the remaining time as they are formatted. -/
def getUiString (metrics : TransferMetrics) (speed eta : List UInt8) : Option UiString :=
  let percent := metrics.getProgressPer
  (drawBar percent).map fun bar => ⟨bar, percent, speed, eta⟩

theorem filled_of_nonneg {count : Int} (nonneg : 0 ≤ count) (fill : UInt8) :
    filled count fill = some (List.replicate count.toNat fill) :=
  if_pos nonneg

theorem nonneg_of_filled {count : Int} {fill : UInt8} {text : List UInt8}
    (made : filled count fill = some text) : 0 ≤ count := by
  by_contra hnegative
  rw [filled, if_neg hnegative] at made
  cases made

/-- The two parts of the bar have a size up to two percent out of range. -/
theorem bars_iff {percent : Int} :
    0 ≤ (percent * 40).tdiv 100 ∧ (percent * 40).tdiv 100 ≤ 40 ↔ -2 ≤ percent ∧ percent ≤ 102 := by
  by_cases hsign : 0 ≤ percent
  · rw [Int.tdiv_eq_ediv_of_nonneg (by omega)]
    omega
  · have hneg : (percent * 40).tdiv 100 = -(-(percent * 40) / 100) := by
      rw [← Int.tdiv_eq_ediv_of_nonneg (by omega), Int.neg_tdiv, Int.neg_neg]
    rw [hneg]
    omega

/-- Then the bar has forty characters, and otherwise it is not drawn. -/
theorem drawBar_iff {percent : Int} :
    (∃ bar, drawBar percent = some bar ∧ bar.length = 40) ↔ -2 ≤ percent ∧ percent ≤ 102 := by
  constructor
  · rintro ⟨bar, hdrawn, -⟩
    rw [drawBar] at hdrawn
    split at hdrawn
    · obtain ⟨done, hdone, hrest⟩ := Option.bind_eq_some_iff.mp hdrawn
      obtain ⟨blank, hblank, -⟩ := Option.bind_eq_some_iff.mp hrest
      have hhigh := nonneg_of_filled hblank
      exact bars_iff.mp ⟨nonneg_of_filled hdone, by omega⟩
    · cases hdrawn
  · intro hpercent
    obtain ⟨hlow, hhigh⟩ := bars_iff.mpr hpercent
    have hproduct : -2 ^ 31 ≤ percent * 40 ∧ percent * 40 < 2 ^ 31 := by omega
    refine ⟨List.replicate ((percent * 40).tdiv 100).toNat 0x3D ++
      List.replicate (40 - (percent * 40).tdiv 100).toNat 0x20, ?_, ?_⟩
    · rw [drawBar, if_pos hproduct]
      dsimp only
      rw [filled_of_nonneg hlow, filled_of_nonneg (by omega)]
      rfl
    · rw [List.length_append, List.length_replicate, List.length_replicate]
      omega

/-- The percentage from the byte counter and the total, as both are numbers of 64 bits, cut to
32 bits. -/
def wrappedPercent (metrics : TransferMetrics) : ℕ :=
  metrics.bytesTransferred.toNat * 100 % 2 ^ 64 / metrics.totalBytes.toNat % 2 ^ 32

/-- There is nothing to transfer, or the counters give at most 102 percent or, as a signed number,
at least minus 2. -/
def Displayable (metrics : TransferMetrics) : Prop :=
  metrics.totalBytes = 0 ∨ metrics.wrappedPercent ≤ 102 ∨ 2 ^ 32 - 2 ≤ metrics.wrappedPercent

instance (metrics : TransferMetrics) : Decidable metrics.Displayable :=
  inferInstanceAs (Decidable (_ ∨ _ ∨ _))

theorem getProgressPer_iff {metrics : TransferMetrics} :
    -2 ≤ metrics.getProgressPer ∧ metrics.getProgressPer ≤ 102 ↔ metrics.Displayable := by
  rw [getProgressPer, Displayable]
  split
  · rename_i hzero
    exact iff_of_true (by decide) (.inl hzero)
  · rename_i hnonzero
    have hpercent : (BitVec.ofNat 32
        ((metrics.bytesTransferred * 100) / metrics.totalBytes).toNat).toNat =
          metrics.wrappedPercent := by
      rw [BitVec.toNat_ofNat, UInt64.toNat_div, UInt64.toNat_mul]
      rfl
    have hbound : metrics.wrappedPercent < 2 ^ 32 := Nat.mod_lt _ (by decide)
    rw [BitVec.toInt_eq_toNat_cond, hpercent]
    simp only [hnonzero, false_or]
    omega

/-- The line has a bar of forty characters exactly if the counters are displayable. -/
theorem getUiString_iff {metrics : TransferMetrics} :
    (∀ speed eta, ∃ ui, metrics.getUiString speed eta = some ui ∧ ui.bar.length = 40) ↔
      metrics.Displayable := by
  rw [← getProgressPer_iff, ← drawBar_iff]
  constructor
  · intro hline
    obtain ⟨ui, hui, hlength⟩ := hline [] []
    obtain ⟨bar, hbar, rfl⟩ := Option.map_eq_some_iff.mp hui
    exact ⟨bar, hbar, hlength⟩
  · rintro ⟨bar, hbar, hlength⟩ speed eta
    exact ⟨_, Option.map_eq_some_iff.mpr ⟨bar, hbar, rfl⟩, hlength⟩

end TransferMetrics

end Sxaint.Core
