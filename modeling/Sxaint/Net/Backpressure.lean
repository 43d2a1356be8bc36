/-
# The wait loop before a chunk

The loop of `sendFile` waits before it submits a chunk, until few segments are pending. The call
that tells how many has an argument with a default, and the loop leaves it out, so it always looks
at the first stream, while a chunk goes to the stream with its number modulo four. The other streams
are not held back by it, whatever they hold.
-/

import Sxaint.Net.Accounting
import Sxaint.Net.Departure

namespace Sxaint.Net

open Sxaint.Core Transition

namespace Endpoint

variable {P : Platform}

/-- With these queue lengths the wait loop lets a chunk pass, which is submitted. -/
def Passes (P : Platform) (strategy : Strategy) (waitSnd : UInt32 → Int) (chunk : Chunk)
    (w : Endpoint) : Prop :=
  (∃ args chosen total rest, w.main = .submit args chosen total (chunk :: rest)) ∧
    w.skips chunk = false ∧ (step P (.main strategy waitSnd) w).isSome = true

/-- However a session goes on that is acknowledged with some bits, and whatever the four queues
hold, every chunk that passes goes to a stream with at most 32000 pending segments. -/
def Backpressured (P : Platform) (start : Endpoint) (bits : List Bool) : Prop :=
  ∀ events w, (machine P start).Run events w → w.resumeBitfield = bits →
    ∀ strategy waitSnd chunk, Passes P strategy waitSnd chunk w → waitSnd (chunk.id % 4) ≤ 32000

/-- The queue lengths in an event are those that the state determines, and a strategy in it is the
one that was detected. -/
def Reads (reading : Endpoint → UInt32 → Int) (strategy : Strategy) (w : Endpoint)
    (event : Event) : Prop :=
  event.reading (reading w) = event ∧ ∀ chosen ∈ event.strategy?, chosen = strategy

/-- Some run with those queue lengths and that strategy leads to a state. -/
def Reaches (P : Platform) (start : Endpoint) (reading : Endpoint → UInt32 → Int)
    (strategy : Strategy) (w : Endpoint) : Prop :=
  ∃ events, (machine P start).RunUnder (Reads reading strategy) events w

/-- An acknowledged sender before the rest of its chunks. -/
structure Looking (P : Platform) (setUp : SetUp) (bits : List Bool) (strategy : Strategy)
    (rest : List Chunk) (w : Endpoint) : Prop where
  live : w.fault ≠ .crash
  mapped : w.fileMapper = some setUp.view
  aesKey : w.aesKey = setUp.key P
  bits : w.resumeBitfield = bits
  main : ∃ total, w.main = .submit setUp.args strategy total rest

theorem step_main {w : Endpoint} (live : w.fault ≠ .crash) (strategy : Strategy)
    (waitSnd : UInt32 → Int) :
    step P (.main strategy waitSnd) w = mainThread P strategy waitSnd w := by
  rw [step, if_neg live]

theorem reaches_start (start : Endpoint) (reading : Endpoint → UInt32 → Int)
    (strategy : Strategy) : Reaches P start reading strategy start :=
  ⟨[], .start⟩

section

variable {start w v : Endpoint} {reading : Endpoint → UInt32 → Int} {strategy : Strategy}

theorem Reaches.step (reached : Reaches P start reading strategy w) (event : Event)
    (reads : Reads reading strategy w event) (taken : Endpoint.step P event w = some v) :
    Reaches P start reading strategy v := by
  obtain ⟨events, hrun⟩ := reached
  exact ⟨_, hrun.snoc reads taken⟩

/-- A step of another thread reads no queue length. -/
theorem Reaches.other (reached : Reaches P start reading strategy w) (event : Event)
    (other : event.strategy? = none) (taken : Endpoint.step P event w = some v) :
    Reaches P start reading strategy v := by
  refine reached.step event ⟨?_, by rw [other]; rintro _ ⟨⟩⟩ taken
  cases event with
  | main _ _ => cases other
  | _ => rfl

theorem Reaches.main (reached : Reaches P start reading strategy w) (live : w.fault ≠ .crash)
    (taken : mainThread P strategy (reading w) w = some v) :
    Reaches P start reading strategy v :=
  reached.step (.main strategy (reading w)) ⟨rfl, by rintro _ ⟨⟩; rfl⟩
    ((step_main live _ _).trans taken)

end

/-- A chunk that the other side lacks passes exactly if the first stream has room. -/
theorem passes_iff {args : SendArgs} {chosen : Strategy} {total : UInt32} {chunk : Chunk}
    {rest : List Chunk} {w : Endpoint} (looks : w.main = .submit args chosen total (chunk :: rest))
    (live : w.fault ≠ .crash) (unknown : w.skips chunk = false) (strategy : Strategy)
    (waitSnd : UInt32 → Int) :
    Passes P strategy waitSnd chunk w ↔ waitSnd 0 ≤ 32000 := by
  have hstep : (step P (.main strategy waitSnd) w).isSome = true ↔ waitSnd 0 ≤ 32000 := by
    rw [step_main live, mainThread]
    simp only [looks, unknown, Bool.false_eq_true, if_false]
    split
    · rename_i hlong
      exact iff_of_false (by simp) (Int.not_le.mpr hlong)
    · rename_i hshort
      exact iff_of_true rfl (Int.not_lt.mp hshort)
  constructor
  · exact fun passes => hstep.mp passes.2.2
  · exact fun hshort => ⟨⟨_, _, _, _, looks⟩, unknown, hstep.mpr hshort⟩

theorem live_of_passes {strategy : Strategy} {waitSnd : UInt32 → Int} {chunk : Chunk}
    {w : Endpoint} (passes : Passes P strategy waitSnd chunk w) : w.fault ≠ .crash := by
  intro hcrash
  have hstep := passes.2.2
  rw [step, if_pos hcrash] at hstep
  cases hstep

/-! ## How far a session gets -/

theorem handleRecv_ackMessage {w : Endpoint} {totalChunks : UInt32} {packed : List UInt8}
    {bits : List Bool} (first : w.handshakeAcked = false)
    (carried : BitField.readBits packed (List.range totalChunks.toNat) = some bits) :
    handleRecv (ackMessage totalChunks packed) w =
      { w with resumeBitfield := bits, net := .publishAcked } := by
  have hack : handleRecv (ackMessage totalChunks packed) w =
      processHandshakeACk (ackMessage totalChunks packed) w := rfl
  have hlong : ¬ (ackMessage totalChunks packed).length < HandshakeAck.size := by
    rw [ackMessage, List.length_append, HandshakeAck.length_encode]
    omega
  have hbits := ackBits_ackMessage totalChunks packed
  rw [ackBits] at hbits
  rw [hack, processHandshakeACk, if_neg (by simp [first]), if_neg hlong]
  simp only [hbits, carried]

section

variable {fileName contents : List UInt8} {pin : UInt32} {onProgress : Bool} {disk : List Path}
  {start : Endpoint} {bits : List Bool}

/-- An acknowledgement with any bits brings a session to its first chunk. -/
theorem exists_looking (opened : sendFile fileName contents pin onProgress disk = some start)
    (small : bits.length < 2 ^ 32) (reading : Endpoint → UInt32 → Int) (strategy : Strategy) :
    ∃ w, Reaches P start reading strategy w ∧
      Looking P (SetUp.ofFile fileName contents pin disk) bits strategy
        (SetUp.ofFile fileName contents pin disk).chunks w ∧
      w.tasks = [] ∧
      w.outbox = [(0, (SetUp.ofFile fileName contents pin disk).args.handshake.encode)] := by
  obtain ⟨packed, hpacked⟩ := BitField.exists_readBits bits
  rw [← UInt32.toNat_ofNat_of_lt' small] at hpacked
  have hread := read_ofFile fileName contents pin disk
  rw [sendFile, Option.ite_none_left_eq_some] at opened
  obtain ⟨-, hstart⟩ := opened
  generalize hsetUp : SetUp.ofFile fileName contents pin disk = setUp at hread
  have hmain : start.main = .deriveKey setUp.args := by rw [← Option.some.inj hstart, ← hsetUp]; rfl
  have hmapped : start.fileMapper = some setUp.view := by
    rw [← Option.some.inj hstart, ← hsetUp]; rfl
  have hlive : start.fault ≠ .crash := by
    rw [← Option.some.inj hstart]
    rintro ⟨⟩
  have hacked : start.handshakeAcked = false := by rw [← Option.some.inj hstart]
  have hrejected : start.handshakeRejected = false := by rw [← Option.some.inj hstart]
  have hidle : start.net = .idle := by rw [← Option.some.inj hstart]
  have htasks : start.tasks = [] := by rw [← Option.some.inj hstart]
  have houtbox : start.outbox = [] := by rw [← Option.some.inj hstart]
  let announced : Endpoint :=
    { start with
      aesKey := setUp.key P
      outbox := [(0, setUp.args.handshake.encode)] }
  have hkeyed : Reaches P start reading strategy
      { start with aesKey := setUp.key P, main := .sendHandshake setUp.args } :=
    (reaches_start start reading strategy).main hlive (by rw [mainThread, hmain]; rfl)
  have hannounced : Reaches P start reading strategy
      { announced with main := .waitAck setUp.args } :=
    hkeyed.main hlive (by simp only [mainThread, sendChunk, houtbox]; rfl)
  have hheard : Reaches P start reading strategy
      { announced with
        main := .waitAck setUp.args, resumeBitfield := bits, net := .publishAcked } := by
    refine hannounced.other (.deliver (ackMessage (UInt32.ofNat bits.length) packed)) rfl ?_
    rw [Endpoint.step, if_neg (by simp [announced, hlive])]
    simp only [announced, hidle]
    exact congrArg some (handleRecv_ackMessage hacked hpacked)
  have hpublished : Reaches P start reading strategy
      { announced with
        main := .waitAck setUp.args, resumeBitfield := bits, net := .idle
        handshakeAcked := true } := by
    refine hheard.other .network rfl ?_
    rw [Endpoint.step, if_neg (by simp [announced, hlive])]
  have hchecking : Reaches P start reading strategy
      { announced with
        main := .checkRejected setUp.args, resumeBitfield := bits, net := .idle
        handshakeAcked := true } :=
    hpublished.main hlive rfl
  have hslicing : Reaches P start reading strategy
      { announced with
        main := .slice setUp.args, resumeBitfield := bits, net := .idle
        handshakeAcked := true } :=
    hchecking.main hlive (if_neg (by simp [announced, hrejected]))
  have hlooking : Reaches P start reading strategy
      { announced with
        main := .submit setUp.args strategy (UInt32.ofNat setUp.chunks.length) setUp.chunks
        resumeBitfield := bits, net := .idle, handshakeAcked := true } := by
    refine hslicing.main hlive ?_
    simp only [mainThread, announced, hmapped, hread]
    rfl
  exact ⟨_, hlooking, ⟨hlive, hmapped, rfl, rfl, _, rfl⟩, htasks, rfl⟩

/-- A sender looks at its chunks one after another and submits those that the bits do not have, as
long as the first stream has room for the frames that were handed over. -/
theorem exists_looking_behind {setUp : SetUp} {strategy : Strategy} {front rest : List Chunk}
    {reading : Endpoint → UInt32 → Int} {w : Endpoint}
    (reached : Reaches P start reading strategy w)
    (room : ∀ v : Endpoint, v.outbox = w.outbox → reading v 0 ≤ 32000)
    (looking : Looking P setUp bits strategy (front ++ rest) w) :
    ∃ v, Reaches P start reading strategy v ∧ Looking P setUp bits strategy rest v ∧
      v.outbox = w.outbox ∧
      v.tasks =
        w.tasks ++ (SendJob.ofChunks bits setUp.args.fileView strategy front).map
          (.sendChunk · .compress) := by
  induction front generalizing w with
  | nil => exact ⟨w, reached, looking, rfl, by simp [SendJob.ofChunks]⟩
  | cons chunk front ih =>
      obtain ⟨total, hmain⟩ := looking.main
      cases hskips : w.skips chunk with
      | true =>
          have hnext : Reaches P start reading strategy
              { w with
                chunksSent := w.chunksSent + 1
                main := .submit setUp.args strategy total (front ++ rest) } := by
            refine reached.main looking.live ?_
            simp only [mainThread, hmain, List.cons_append, hskips, if_true]
          obtain ⟨v, hv, hlooking, houtbox, htasks⟩ := ih hnext room
            ⟨looking.live, looking.mapped, looking.aesKey, looking.bits, total, rfl⟩
          refine ⟨v, hv, hlooking, houtbox, ?_⟩
          rw [skips, looking.bits] at hskips
          have hsame : SendJob.ofChunks bits setUp.args.fileView strategy (chunk :: front) =
              SendJob.ofChunks bits setUp.args.fileView strategy front := by
            rw [SendJob.ofChunks, List.filter_cons_of_neg (by rw [hskips]; decide),
              ← SendJob.ofChunks]
          rw [htasks, hsame]
      | false =>
          have hnext : Reaches P start reading strategy
              { w.submit (.sendChunk (SendJob.ofChunk setUp.args.fileView strategy chunk)
                  .compress) with
                main := .submit setUp.args strategy total (front ++ rest) } := by
            refine reached.main looking.live ?_
            simp only [mainThread, hmain, List.cons_append, hskips, Bool.false_eq_true, if_false]
            rw [if_neg (Int.not_lt.mpr (room w rfl))]
          obtain ⟨v, hv, hlooking, houtbox, htasks⟩ := ih hnext room
            ⟨looking.live, looking.mapped, looking.aesKey, looking.bits, total, rfl⟩
          refine ⟨v, hv, hlooking, houtbox, ?_⟩
          rw [skips, looking.bits] at hskips
          rw [htasks, SendJob.ofChunks, SendJob.ofChunks,
            List.filter_cons_of_pos (by simpa using hskips), submit]
          simp

end

/-! ## When the bound holds -/

/-- The number of chunks of a file. -/
def chunkTotal (contents : List UInt8) : ℕ :=
  (Chunker.totalChunks contents.length Chunker.kDefaultChunkSize).toNat

section

variable {fileName contents : List UInt8} {pin : UInt32} {onProgress : Bool} {disk : List Path}
  {start : Endpoint} {bits : List Bool}

/-- A chunk that is looked at is one of the file. -/
theorem toNat_id_lt {events : List Event} {w : Endpoint} {args : SendArgs} {chosen : Strategy}
    {total : UInt32} {chunk : Chunk} {rest : List Chunk}
    (opened : sendFile fileName contents pin onProgress disk = some start)
    (run : (machine P start).Run events w)
    (looks : w.main = .submit args chosen total (chunk :: rest)) :
    chunk.id.toNat < chunkTotal contents := by
  rcases submitting_or_declined opened run with hsubmitting | ⟨hreturned, -⟩
  · have hlooked := hsubmitting.main
    rw [looks] at hlooked
    obtain ⟨-, -, done, hall, -⟩ := hlooked
    have hmem : chunk.id ∈ chunkIds (chunkTotal contents) := by
      rw [chunkTotal, ← hall]
      simp
    obtain ⟨i, hi, hid⟩ := List.mem_map.mp hmem
    have hinside := List.mem_range.mp hi
    rw [← hid, UInt32.toNat_ofNat', Nat.mod_eq_of_lt (hinside.trans (UInt32.toNat_lt _))]
    exact hinside
  · rw [looks] at hreturned
    cases hreturned

/-- As long as the first stream has room, every chunk is looked at. -/
theorem exists_looking_at (opened : sendFile fileName contents pin onProgress disk = some start)
    (small : bits.length < 2 ^ 32) (reading : Endpoint → UInt32 → Int) (strategy : Strategy)
    (room : ∀ w, reading w 0 ≤ 32000) {i : ℕ}
    (inside : i < chunkTotal contents) :
    ∃ w chunk rest, Reaches P start reading strategy w ∧
      Looking P (SetUp.ofFile fileName contents pin disk) bits strategy (chunk :: rest) w ∧
      chunk.id.toNat = i := by
  obtain ⟨front, rest, hchunks⟩ := List.append_of_mem
    ((Chunker.mem_slice (ne_nil_of_sendFile opened)).mpr ⟨i, inside, rfl⟩)
  obtain ⟨w, hw, hlooking, -, -⟩ := exists_looking (P := P) opened small reading strategy
  rw [show (SetUp.ofFile fileName contents pin disk).chunks = _ from hchunks] at hlooking
  obtain ⟨v, hv, hat, -, -⟩ := exists_looking_behind hw (fun v _ => room v) hlooking
  exact ⟨v, _, rest, hv, hat, Chunker.toNat_chunkAt_id inside⟩

/-- For every file and every bits, the bound holds of all queues that a chunk goes to exactly if the
bits have every chunk that does not go to the first stream. -/
theorem backpressured_iff (opened : sendFile fileName contents pin onProgress disk = some start)
    (small : bits.length < 2 ^ 32) :
    Backpressured P start bits ↔
      ∀ i < chunkTotal contents, bits.getD i false = false → i % 4 = 0 := by
  have hstream (chunk : Chunk) : chunk.id % 4 = 0 ↔ chunk.id.toNat % 4 = 0 := by
    rw [← UInt32.toNat_inj, UInt32.toNat_mod]
    rfl
  constructor
  · intro bounded i hi hmissing
    by_contra hother
    -- Nothing is pending until the chunk is looked at, and then all other streams are full.
    obtain ⟨w, chunk, rest, ⟨events, hrun⟩, hlooking, hid⟩ :=
      exists_looking_at (P := P) opened small (fun _ _ => 0) .NONE (fun _ => by decide) hi
    obtain ⟨total, hmain⟩ := hlooking.main
    have hunknown : w.skips chunk = false := by
      rw [skips, hlooking.bits, hid, hmissing]
    have hpasses := (passes_iff (P := P) hmain hlooking.live hunknown .NONE
      fun s => if s = 0 then 0 else 32001).mpr (by decide)
    have hbound := bounded events w (hrun.mono fun _ _ _ => trivial) hlooking.bits _ _ _ hpasses
    rw [if_neg (by rw [hstream, hid]; exact hother)] at hbound
    exact absurd hbound (by decide)
  · intro hevery events w run hbits strategy waitSnd chunk passes
    obtain ⟨args, chosen, total, rest, hmain⟩ := passes.1
    have hunknown := passes.2.1
    have hroom := (passes_iff hmain (live_of_passes passes) hunknown strategy waitSnd).mp passes
    rw [skips, hbits] at hunknown
    rw [(hstream chunk).mpr (hevery _ (toNat_id_lt opened run hmain) hunknown)]
    exact hroom

end

/-- A file of five chunks. -/
def fiveChunks : List UInt8 :=
  List.replicate (5 * Chunker.kDefaultChunkSize) 0

theorem chunkTotal_fiveChunks : chunkTotal fiveChunks = 5 := by
  rw [chunkTotal, fiveChunks, List.length_replicate]
  decide

/-- The first and the last of these chunks go to the first stream. The bound holds if the other side
has the three in between, and not if it has nothing. -/
theorem backpressured_fiveChunks :
    ∃ start, sendFile [97] fiveChunks 123456 false [] = some start ∧
      Backpressured KnownAnswers.platform start [false, true, true, true] ∧
      ¬ Backpressured KnownAnswers.platform start [] := by
  have hnonempty : fiveChunks ≠ [] := by
    rw [fiveChunks, Ne, List.replicate_eq_nil_iff]
    decide
  obtain ⟨start, hopened⟩ : ∃ start, sendFile [97] fiveChunks 123456 false [] = some start :=
    ⟨_, if_neg hnonempty⟩
  refine ⟨start, hopened, (backpressured_iff hopened (by decide)).mpr ?_, fun bounded => ?_⟩
  · rw [chunkTotal_fiveChunks]
    decide
  · have hnone := (backpressured_iff hopened (by decide)).mp bounded
    rw [chunkTotal_fiveChunks] at hnone
    exact absurd (hnone 1 (by decide) rfl) (by decide)

end Endpoint

end Sxaint.Net
