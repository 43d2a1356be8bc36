/-
# The choice of a strategy

`detect` looks at the extension of a file and at a sample of its bytes. The number that
`calc_entropy` computes, taken in real arithmetic, is the sum of the surprisals of the byte values
less one bit. That is the entropy of the sample for two equally frequent byte values, and never
below it for two values or more.
-/

import Sxaint.Core.Compressor
import Sxaint.Core.Path
import Sxaint.Math.Entropy

namespace Sxaint.Core

namespace SmartCompressor

/-! ## The code -/

/-- How often each byte value occurs, by the array of counters. -/
def frequencies (data : List UInt8) : List ℕ :=
  data.foldl (fun counts b => counts.modify b.toNat (· + 1)) (List.replicate 256 0)

/-- The number the decision is based on, without the rounding of `double`. -/
noncomputable def calcEntropy (data : List UInt8) : ℝ :=
  if data.isEmpty then 0
  else
    (frequencies data).foldl
      (fun (entropy : ℝ) (count : ℕ) =>
        if 0 < count then
          let prob : ℝ := count / data.length
          entropy - (prob + FiniteDistribution.log2 prob)
        else entropy) 0

/-- The extensions that are not compressed, as narrow text. -/
def skipExten : List (List UInt8) :=
  [".mp4", ".mkv", ".avi", ".mov", ".zip", ".rar", ".7z", ".gz", ".tar.gz", ".jpg", ".jpeg",
    ".png", ".webp", ".mp3", ".filac", ".aac", "/pdf"].map fun text =>
      text.toList.map fun c => UInt8.ofNat c.toNat

/-- The letters from `A` to `Z` in lower case, other bytes as they are. -/
def lowerCase (exten : List UInt8) : List UInt8 :=
  exten.map fun c => if 65 ≤ c.toNat ∧ c.toNat ≤ 90 then c + 32 else c

/-- `detect`; nothing for an exception of a conversion to narrow text. A skipped file is logged
with its name. -/
noncomputable def detect (host : Host) (path : Path) (fileSample : List UInt8) :
    Option Strategy :=
  (host.toNarrow path.extension).bind fun exten =>
    if lowerCase exten ∈ skipExten then (host.toNarrow path.filename).map fun _ => .NONE
    else if calcEntropy fileSample > 7.5 then some .NONE
    else some .LZ4

/-! ## The distribution of a sample -/

/-- The Shannon entropy of the bytes of a sample, in bits. -/
noncomputable def shannonEntropy (data : List UInt8) : ℝ :=
  -∑ b ∈ data.toFinset,
    (data.count b / data.length : ℝ) * FiniteDistribution.log2 (data.count b / data.length)

/-- The byte values of a sample, each with its share. -/
noncomputable def distribution {data : List UInt8} (nonempty : data ≠ []) :
    FiniteDistribution UInt8 where
  support := data.toFinset
  mass b := data.count b / data.length
  positive b mem := by
    have hcount := List.count_pos_iff.mpr (List.mem_toFinset.mp mem)
    have hlength := List.length_pos_iff.mpr nonempty
    positivity
  total := by
    have hlength : (data.length : ℝ) ≠ 0 := by simpa using nonempty
    rw [← Finset.sum_div, ← Nat.cast_sum, List.sum_toFinset_count_eq_length, div_self hlength]

theorem shannonEntropy_eq {data : List UInt8} (nonempty : data ≠ []) :
    shannonEntropy data = (distribution nonempty).entropy :=
  (distribution nonempty).entropy_eq_neg_sum.symm

theorem shannonEntropy_nonneg {data : List UInt8} (nonempty : data ≠ []) :
    0 ≤ shannonEntropy data := by
  rw [shannonEntropy_eq nonempty]
  exact (distribution nonempty).entropy_nonneg

/-- There are 256 byte values. -/
theorem shannonEntropy_le {data : List UInt8} (nonempty : data ≠ []) :
    shannonEntropy data ≤ 8 := by
  have hcard : data.toFinset.card ≤ 256 := by
    have himage : data.toFinset.image UInt8.toNat ⊆ Finset.range 256 := by
      intro i hi
      obtain ⟨b, -, rfl⟩ := Finset.mem_image.mp hi
      exact Finset.mem_range.mpr b.toNat_lt
    have hle := Finset.card_le_card himage
    rwa [Finset.card_image_of_injective _ fun a b => UInt8.toNat_inj.mp, Finset.card_range] at hle
  have hpositive : (0 : ℝ) < data.toFinset.card :=
    Nat.cast_pos.mpr (distribution nonempty).support_nonempty.card_pos
  rw [shannonEntropy_eq nonempty]
  calc
    _ ≤ FiniteDistribution.log2 data.toFinset.card := (distribution nonempty).entropy_le_log2_card
    _ ≤ Real.logb 2 (2 ^ 8) := by
      apply Real.logb_le_logb_of_le one_lt_two hpositive
      exact_mod_cast hcard
    _ = 8 := by
      rw [Real.logb_pow, Real.logb_self_eq_one one_lt_two]
      norm_num

/-! ## What the code computes -/

theorem getElem?_frequencies (data : List UInt8) (i : ℕ) :
    (frequencies data)[i]? =
      if i < 256 then some (data.countP fun b => b.toNat = i) else none := by
  have hfold (counts : List ℕ) :
      (data.foldl (fun counts b => counts.modify b.toNat (· + 1)) counts)[i]? =
        counts[i]?.map (· + data.countP fun b => b.toNat = i) := by
    induction data generalizing counts with
    | nil => simp
    | cons b data ih =>
        rw [List.foldl_cons, ih, List.getElem?_modify, List.countP_cons]
        cases counts[i]? with
        | none => rfl
        | some count =>
            by_cases hb : b.toNat = i <;> simp [hb]
            omega
  rw [frequencies, hfold, List.getElem?_replicate]
  split <;> simp

theorem frequencies_eq (data : List UInt8) :
    frequencies data = (List.range 256).map fun i => data.countP fun b => b.toNat = i := by
  apply List.ext_getElem?
  intro i
  rw [getElem?_frequencies, List.getElem?_map]
  split
  · rename_i hi
    rw [List.getElem?_range hi, Option.map_some]
  · rename_i hi
    rw [List.getElem?_eq_none (by simpa using hi), Option.map_none]

/-- The loop over the counters adds up what the occurring byte values contribute. -/
theorem foldl_frequencies (data : List UInt8) (term : ℕ → ℝ) :
    (frequencies data).foldl
        (fun entropy count => if 0 < count then entropy - term count else entropy) 0 =
      -∑ b ∈ data.toFinset, term (data.count b) := by
  have hfold (counts : List ℕ) (start : ℝ) :
      counts.foldl (fun entropy count => if 0 < count then entropy - term count else entropy)
          start =
        start - (counts.map fun count => if 0 < count then term count else 0).sum := by
    induction counts generalizing start with
    | nil => simp
    | cons count counts ih =>
        rw [List.foldl_cons, ih, List.map_cons, List.sum_cons]
        split <;> ring
  have hcount (b : UInt8) : data.count b = data.countP fun c => c.toNat = b.toNat := by
    rw [List.count]
    apply List.countP_congr
    intro c _
    simp [UInt8.toNat_inj]
  have hsum : ∑ b ∈ data.toFinset, term (data.count b) =
      ∑ i ∈ data.toFinset.image UInt8.toNat, term (data.countP fun c => c.toNat = i) := by
    rw [Finset.sum_image fun a _ b _ => UInt8.toNat_inj.mp]
    exact Finset.sum_congr rfl fun b _ => congrArg term (hcount b)
  rw [hfold, frequencies_eq, List.map_map, zero_sub, hsum]
  congr 1
  rw [← List.sum_toFinset _ List.nodup_range, List.toFinset_range]
  symm
  apply Finset.sum_subset_zero_on_sdiff
  · intro i hi
    obtain ⟨b, -, rfl⟩ := Finset.mem_image.mp hi
    exact Finset.mem_range.mpr b.toNat_lt
  · intro i hi
    have hnone : ¬ 0 < data.countP fun c => c.toNat = i := by
      intro hpositive
      obtain ⟨b, hmem, hb⟩ := List.countP_pos_iff.mp hpositive
      exact (Finset.mem_sdiff.mp hi).2
        (Finset.mem_image.mpr ⟨b, List.mem_toFinset.mpr hmem, by simpa using hb⟩)
    rw [Function.comp_apply, if_neg hnone]
  · intro i hi
    obtain ⟨b, hmem, rfl⟩ := Finset.mem_image.mp hi
    have hpositive : 0 < data.countP fun c => c.toNat = b.toNat :=
      List.countP_pos_iff.mpr ⟨b, List.mem_toFinset.mp hmem, by simp⟩
    rw [Function.comp_apply, if_pos hpositive]

/-- The code adds a share and its logarithm where the entropy multiplies them. -/
theorem calcEntropy_eq {data : List UInt8} (nonempty : data ≠ []) :
    calcEntropy data = shannonEntropy data + ((distribution nonempty).excess - 1) := by
  rw [calcEntropy, if_neg (by simpa using nonempty),
    foldl_frequencies data fun count =>
      (count / data.length : ℝ) + FiniteDistribution.log2 (count / data.length),
    shannonEntropy_eq nonempty, ← add_sub_assoc, ← FiniteDistribution.sum_surprisal,
    Finset.sum_add_distrib, ← (distribution nonempty).total]
  simp only [FiniteDistribution.surprisal, Finset.sum_neg_distrib, distribution]
  ring

/-! ## Whether the decision follows the entropy -/

/-- What the compressor promises for a sample. -/
structure FollowsEntropy (sample : List UInt8) : Prop where
  equal : calcEntropy sample = shannonEntropy sample
  range : 0 ≤ calcEntropy sample ∧ calcEntropy sample ≤ 8
  decides : ∀ (host : Host) (path : Path) (exten : List UInt8),
    host.toNarrow path.extension = some exten → lowerCase exten ∉ skipExten →
      detect host path sample = some (if 7.5 < shannonEntropy sample then .NONE else .LZ4)

theorem detect_of_not_skipped {host : Host} {path : Path} {exten : List UInt8}
    (narrow : host.toNarrow path.extension = some exten) (other : lowerCase exten ∉ skipExten)
    (sample : List UInt8) :
    detect host path sample = some (if 7.5 < calcEntropy sample then .NONE else .LZ4) := by
  rw [detect, narrow, Option.bind_some, if_neg other]
  split <;> rfl

/-- The excess is one bit exactly for two byte values that occur equally often. -/
theorem excess_eq_one_iff {sample : List UInt8} (nonempty : sample ≠ []) :
    (distribution nonempty).excess = 1 ↔
      ∃ a b, a ≠ b ∧ (∀ c ∈ sample, c = a ∨ c = b) ∧ sample.count a = sample.count b := by
  have hlength : (sample.length : ℝ) ≠ 0 := by simpa using nonempty
  have hmass (a b : UInt8) : (distribution nonempty).mass a = (distribution nonempty).mass b ↔
      sample.count a = sample.count b := by
    simp only [distribution, div_left_inj' hlength, Nat.cast_inj]
  rw [FiniteDistribution.excess_eq_one_iff]
  constructor
  · rintro ⟨a, b, hne, hsupport, hsame⟩
    refine ⟨a, b, hne, fun c hc => ?_, (hmass a b).mp hsame⟩
    have hmem : c ∈ (distribution nonempty).support := List.mem_toFinset.mpr hc
    simpa [hsupport] using hmem
  · rintro ⟨a, b, hne, hall, hsame⟩
    -- equally often is at least once
    have hcount : ∃ c ∈ sample, c = a ∨ c = b := by
      obtain ⟨c, hc⟩ := List.exists_mem_of_ne_nil sample nonempty
      exact ⟨c, hc, hall c hc⟩
    have hboth : a ∈ sample ∧ b ∈ sample := by
      rw [← List.count_pos_iff, ← List.count_pos_iff, hsame, and_self]
      obtain ⟨c, hc, rfl | rfl⟩ := hcount
      · exact hsame ▸ List.count_pos_iff.mpr hc
      · exact List.count_pos_iff.mpr hc
    refine ⟨a, b, hne, ?_, (hmass a b).mpr hsame⟩
    ext c
    rw [Finset.mem_insert, Finset.mem_singleton]
    constructor
    · exact fun hc => hall c (List.mem_toFinset.mp hc)
    · rintro (rfl | rfl)
      · exact List.mem_toFinset.mpr hboth.1
      · exact List.mem_toFinset.mpr hboth.2

/-- The decision follows the entropy of the sample exactly if two byte values make up the sample in
equal numbers. -/
theorem followsEntropy_iff {sample : List UInt8} (nonempty : sample ≠ []) :
    FollowsEntropy sample ↔
      ∃ a b, a ≠ b ∧ (∀ c ∈ sample, c = a ∨ c = b) ∧ sample.count a = sample.count b := by
  rw [← excess_eq_one_iff nonempty]
  have hcode := calcEntropy_eq nonempty
  constructor
  · intro hfollows
    have hequal := hfollows.equal
    linarith
  · intro hexcess
    have hequal : calcEntropy sample = shannonEntropy sample := by
      rw [hcode, hexcess, sub_self, add_zero]
    refine ⟨hequal, ?_, fun host path exten hnarrow hother => ?_⟩
    · rw [hequal]
      exact ⟨shannonEntropy_nonneg nonempty, shannonEntropy_le nonempty⟩
    · rw [detect_of_not_skipped hnarrow hother, hequal]

/-- A sample of two byte values, each once. -/
theorem followsEntropy_of_twoValues : FollowsEntropy [65, 66] :=
  (@followsEntropy_iff [65, 66] (by decide)).mpr ⟨65, 66, by decide, by simp, by decide⟩

/-- With two byte values or more the number of the code is not below the entropy, so what has a
high entropy is never compressed; what is not compressed need not have one. -/
theorem shannonEntropy_le_calcEntropy {sample : List UInt8} {a b : UInt8} (left : a ∈ sample)
    (right : b ∈ sample) (differ : a ≠ b) : shannonEntropy sample ≤ calcEntropy sample := by
  have hnonempty : sample ≠ [] := List.ne_nil_of_mem left
  have hpair : ({a, b} : Finset UInt8) ⊆ (distribution hnonempty).support := by
    intro c hc
    rw [Finset.mem_insert, Finset.mem_singleton] at hc
    rcases hc with rfl | rfl
    · exact List.mem_toFinset.mpr left
    · exact List.mem_toFinset.mpr right
  have hcard := Finset.card_le_card hpair
  rw [Finset.card_pair differ] at hcard
  have hexcess := (distribution hnonempty).one_le_excess hcard
  have hcode := calcEntropy_eq hnonempty
  linarith

/-- Eight byte values, each once. -/
def eightValues : List UInt8 :=
  [0, 1, 2, 3, 4, 5, 6, 7]

/-- Their entropy is three bits, and they are taken for incompressible. -/
theorem not_followsEntropy_of_eightValues :
    shannonEntropy eightValues = 3 ∧ calcEntropy eightValues = 23 ∧
      ¬ ∀ sample : List UInt8, sample ≠ [] → FollowsEntropy sample := by
  have hlog : FiniteDistribution.log2 (1 / 8) = -3 := by
    rw [FiniteDistribution.log2, one_div, Real.logb_inv, show (8 : ℝ) = 2 ^ 3 by norm_num,
      Real.logb_pow, Real.logb_self_eq_one one_lt_two]
    norm_num
  have hcount : ∀ b ∈ eightValues.toFinset, eightValues.count b = 1 := by decide +kernel
  have hcard : eightValues.toFinset.card = 8 := by decide +kernel
  have hlength : eightValues.length = 8 := rfl
  have hentropy : shannonEntropy eightValues = 3 := by
    rw [shannonEntropy, Finset.sum_congr rfl fun b hb => by rw [hcount b hb], Finset.sum_const,
      hcard, hlength]
    norm_num [hlog]
  have hcode : calcEntropy eightValues = 23 := by
    rw [calcEntropy, if_neg (by decide), foldl_frequencies eightValues fun count =>
      (count / eightValues.length : ℝ) + FiniteDistribution.log2 (count / eightValues.length),
      Finset.sum_congr rfl fun b hb => by rw [hcount b hb], Finset.sum_const, hcard, hlength]
    norm_num [hlog]
  refine ⟨hentropy, hcode, fun hall => ?_⟩
  have hequal := (hall eightValues (by decide)).equal
  rw [hentropy, hcode] at hequal
  norm_num at hequal

end SmartCompressor

end Sxaint.Core
