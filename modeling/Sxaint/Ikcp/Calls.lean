/-
# Calls of a control block

A control block is created and set up, and then called: with bytes to send, for bytes to read, with
datagrams that arrive, with the time. Whatever it is called with, it is a machine; what holds of all
its runs holds for any peer, one that is faulty or hostile included.
-/

import Sxaint.Ikcp.Flush
import Sxaint.Ikcp.Input
import Sxaint.Machine.Run

namespace Sxaint.Ikcp

open Transition

open Sxaint.Net.Kcp (overhead)

/-- A control block that was created and set up, and not used. -/
inductive SetUp (conv : UInt32) : Ikcpcb → Prop
  | create : SetUp conv (.create conv)
  | setmtu {kcp : Ikcpcb} (prior : SetUp conv kcp) (mtu : Int32) : SetUp conv (kcp.setmtu mtu).2
  | nodelay {kcp : Ikcpcb} (prior : SetUp conv kcp) (nodelay interval resend nc : Int32) :
    SetUp conv (kcp.setNodelay nodelay interval resend nc)
  | wndsize {kcp : Ikcpcb} (prior : SetUp conv kcp) (sndwnd rcvwnd : Int32) :
    SetUp conv (kcp.wndsize sndwnd rcvwnd)
  | stream {kcp : Ikcpcb} (prior : SetUp conv kcp) (stream : Bool) :
    SetUp conv { kcp with stream := stream }

/-- A call. -/
inductive Call
  | send (buffer : List UInt8)
  | recv (len : ℤ)
  | input (data : List UInt8)
  | update (current : UInt32)
  | flush
  deriving DecidableEq, Repr

namespace Ikcpcb

/-- What a call makes of a control block. -/
def apply (kcp : Ikcpcb) : Call → Ikcpcb
  | .send buffer => (kcp.send buffer).2
  | .recv len => (kcp.recv len).2.2
  | .input data => (kcp.input data).2
  | .update current => kcp.update current
  | .flush => kcp.flush

/-- The machine of a control block. -/
def machine (start : Ikcpcb) : Machine Ikcpcb Call where
  init := start
  step call kcp := some (kcp.apply call)

/-- What is set up before a control block is used, and not changed any more. -/
structure Configured (conv : UInt32) (kcp : Ikcpcb) : Prop where
  conv : kcp.conv = conv
  /-- A segment of the largest size just fits a datagram. -/
  mtu : kcp.mtu.toNat = kcp.mss.toNat + overhead
  mss : 0 < kcp.mss.toNat ∧ kcp.mss.toNat < 2 ^ 31
  sndWnd : 0 < kcp.sndWnd.toNat ∧ kcp.sndWnd.toNat < 2 ^ 31
  rcvWnd : wndRcv ≤ kcp.rcvWnd.toNat ∧ kcp.rcvWnd.toNat < 2 ^ 31
  rxMinrto : kcp.rxMinrto = 30 ∨ kcp.rxMinrto = 100
  interval : 10 ≤ kcp.interval.toNat ∧ kcp.interval.toNat ≤ 5000

/-- A control block without what the set-up assigns. -/
def bare (kcp : Ikcpcb) : Ikcpcb :=
  { kcp with
    mtu := 0
    mss := 0
    rxMinrto := 0
    sndWnd := 0
    rcvWnd := 0
    interval := 0
    nodelay := 0
    fastresend := 0
    nocwnd := false
    stream := false }

/-- Apart from that, a control block that is only set up is as it was created. -/
theorem bare_of_setUp {conv : UInt32} {kcp : Ikcpcb} (setUp : SetUp conv kcp) :
    kcp.bare = (create conv).bare := by
  induction setUp with
  | create => rfl
  | setmtu prior mtu ih =>
      refine Eq.trans ?_ ih
      rw [setmtu]
      split <;> dsimp only [bare]
  | nodelay prior nodelay interval resend nc ih => exact ih
  | wndsize prior sndwnd rcvwnd ih => exact ih
  | stream prior stream ih =>
      refine Eq.trans ?_ ih
      dsimp only [bare]

theorem toNat_toUInt32_of_pos {n : Int32} (positive : 0 < n) :
    0 < n.toUInt32.toNat ∧ n.toUInt32.toNat < 2 ^ 31 := by
  have hle : 0 ≤ n := Int32.le_iff_toInt_le.mpr (Int32.lt_iff_toInt_lt.mp positive).le
  have hpositive : (0 : ℤ) < n.toInt := Int32.lt_iff_toInt_lt.mp positive
  have hcast := Int32.cast_toNatClampNeg n hle
  have hlt := n.toNatClampNeg_lt
  rw [Int32.toNat_toUInt32_of_le hle]
  omega

/-- The MTU leaves room for data, the windows are half of the range of numbers at most, and the
receiving one is not smaller than the number of fragments that a message may have. -/
theorem configured_of_setUp {conv : UInt32} {kcp : Ikcpcb} (setUp : SetUp conv kcp) :
    kcp.Configured conv := by
  induction setUp with
  | create => constructor <;> first | rfl | (dsimp only [create]; decide)
  | @setmtu kcp prior mtu ih =>
      rw [setmtu]
      split
      · exact ih
      · rename_i hlarge
        rw [not_or, Int32.not_lt] at hlarge
        have hle : (50 : ℤ) ≤ mtu.toInt := Int32.le_iff_toInt_le.mp hlarge.1
        have hpositive : 0 < mtu := Int32.lt_iff_toInt_lt.mpr (lt_of_lt_of_le (by decide) hle)
        have hnonneg : 0 ≤ mtu := Int32.le_iff_toInt_le.mpr (le_trans (by decide) hle)
        have hcast := Int32.cast_toNatClampNeg mtu hnonneg
        have hnat := Int32.toNat_toUInt32_of_le hnonneg
        have hlt := (toNat_toUInt32_of_pos hpositive).2
        have hroom : overhead ≤ mtu.toUInt32.toNat := by
          rw [overhead, hnat]
          omega
        have hmss : (mtu.toUInt32 - UInt32.ofNat overhead).toNat =
            mtu.toUInt32.toNat - overhead :=
          UInt32.toNat_sub_of_le _ _ (UInt32.le_iff_toNat_le.mpr hroom)
        refine ⟨ih.conv, ?_, ?_, ih.sndWnd, ih.rcvWnd, ih.rxMinrto, ih.interval⟩
        · dsimp only
          rw [hmss, Nat.sub_add_cancel hroom]
        · dsimp only
          rw [hmss, overhead]
          omega
  | @nodelay kcp prior nodelay interval resend nc ih =>
      refine ⟨ih.conv, ih.mtu, ih.mss, ih.sndWnd, ih.rcvWnd, ?_, ?_⟩
      · dsimp only [setNodelay]
        split
        · split
          · exact .inl rfl
          · exact .inr rfl
        · exact ih.rxMinrto
      · dsimp only [setNodelay]
        split
        · split
          · decide
          split
          · decide
          · rename_i hnonneg hmost hleast
            rw [Int32.not_lt] at hmost hleast
            have hle : interval.toInt ≤ 5000 := Int32.le_iff_toInt_le.mp hmost
            have hge : 10 ≤ interval.toInt := Int32.le_iff_toInt_le.mp hleast
            have hcast := Int32.cast_toNatClampNeg interval hnonneg
            rw [Int32.toNat_toUInt32_of_le hnonneg]
            omega
        · exact ih.interval
  | @wndsize kcp prior sndwnd rcvwnd ih =>
      refine ⟨ih.conv, ih.mtu, ih.mss, ?_, ?_, ih.rxMinrto, ih.interval⟩
      · dsimp only [wndsize]
        split
        · rename_i hpositive
          exact toNat_toUInt32_of_pos hpositive
        · exact ih.sndWnd
      · dsimp only [wndsize]
        split
        · rename_i hpositive
          have hrange := toNat_toUInt32_of_pos hpositive
          have hleast : (UInt32.ofNat wndRcv).toNat = wndRcv := rfl
          rw [toNat_max, hleast, wndRcv]
          omega
        · exact ih.rcvWnd
  | stream prior stream ih =>
      exact ⟨ih.conv, ih.mtu, ih.mss, ih.sndWnd, ih.rcvWnd, ih.rxMinrto, ih.interval⟩

/-! ## What no call changes -/

/-- What the set-up assigns. -/
def configuration (kcp : Ikcpcb) :
    UInt32 × UInt32 × UInt32 × UInt32 × UInt32 × Int32 × UInt32 × UInt32 × Int32 × Bool × Bool :=
  (kcp.conv, kcp.mtu, kcp.mss, kcp.sndWnd, kcp.rcvWnd, kcp.rxMinrto, kcp.interval, kcp.nodelay,
    kcp.fastresend, kcp.nocwnd, kcp.stream)

theorem configuration_unread (kcp : Ikcpcb) : kcp.unread.configuration = kcp.configuration :=
  rfl

theorem configuration_unflushed (kcp : Ikcpcb) :
    kcp.unflushed.configuration = kcp.configuration :=
  rfl

theorem configuration_flush (kcp : Ikcpcb) : kcp.flush.configuration = kcp.configuration := by
  rw [← configuration_unflushed, unflushed_flush, configuration_unflushed]

theorem configuration_apply (kcp : Ikcpcb) (call : Call) :
    (kcp.apply call).configuration = kcp.configuration := by
  cases call with
  | send buffer => exact (congrArg configuration (kcp.unqueued_send buffer) :)
  | recv len => exact (congrArg configuration (kcp.unreceived_recv len) :)
  | input data =>
      rw [apply, ← configuration_unread, unread_input, configuration_unread]
  | update current =>
      rw [apply]
      exact update_induct (motive := fun k => k.configuration = kcp.configuration) (fun _ => rfl)
        fun k same => k.configuration_flush.trans same
  | flush => exact kcp.configuration_flush

theorem Configured.of_configuration {conv : UInt32} {kcp k : Ikcpcb}
    (configured : kcp.Configured conv) (same : k.configuration = kcp.configuration) :
    k.Configured conv := by
  simp only [configuration, Prod.mk.injEq] at same
  obtain ⟨hconv, hmtu, hmss, hsndWnd, hrcvWnd, hrxMinrto, hinterval, -⟩ := same
  constructor
  · exact hconv.trans configured.conv
  · rw [hmtu, hmss]
    exact configured.mtu
  · rw [hmss]
    exact configured.mss
  · rw [hsndWnd]
    exact configured.sndWnd
  · rw [hrcvWnd]
    exact configured.rcvWnd
  · rw [hrxMinrto]
    exact configured.rxMinrto
  · rw [hinterval]
    exact configured.interval

/-! ## The streams of a transport -/

/-- A control block as a transport sets it up. -/
def ofTransport (conv : UInt32) (nodelay interval resend nc : Int32) : Ikcpcb :=
  let sized := ((create conv).setNodelay nodelay interval resend nc).wndsize 4096 4096
  { (sized.setmtu 16384).2 with stream := true }

theorem setUp_ofTransport (conv : UInt32) (nodelay interval resend nc : Int32) :
    SetUp conv (ofTransport conv nodelay interval resend nc) :=
  ((((SetUp.create).nodelay nodelay interval resend nc).wndsize 4096 4096).setmtu 16384).stream true

end Ikcpcb

end Sxaint.Ikcp
