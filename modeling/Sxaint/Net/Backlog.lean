/-
# A backlog that nothing holds back

The wait loop before a chunk looks at the first stream. While the network thread is behind, what
is handed over stays in its stream, so a receiver that lacks no chunk of the first stream lets the
others grow with the file: `sendFile` goes on whatever they hold.
-/

import Sxaint.Core.Detection
import Sxaint.Net.Backpressure
import Sxaint.Net.Outbox
import Sxaint.Net.Pending

namespace Sxaint.Net

open Sxaint.Core Transition

namespace Endpoint

variable {P : Platform} {start w : Endpoint} {reading : Endpoint → UInt32 → Int}
  {strategy : Strategy}

/-! ## The chunk tasks hand their messages over -/

theorem Reaches.task {v : Endpoint} {done later : List Task} {task next : Task}
    (reached : Reaches P start reading strategy w) (live : w.fault ≠ .crash)
    (tasks : w.tasks = done ++ task :: later)
    (taken : runTask P task true w = some (next, v)) (same : v.tasks = w.tasks) :
    Reaches P start reading strategy { v with tasks := done ++ next :: later } := by
  refine reached.other (.task done.length true) rfl ?_
  have hfound : w.tasks[done.length]? = some task := by
    rw [tasks]
    simp
  have hset : v.tasks.set done.length next = done ++ next :: later := by
    rw [same, tasks]
    simp
  rw [Endpoint.step, if_neg (by simp [live])]
  simp only [hfound, taken, Option.map_some, hset]

variable {setUp : SetUp} {bits : List Bool} {rest : List Chunk}

/-- The task of a chunk hands the message of the chunk over. -/
theorem exists_handed (reached : Reaches P start reading strategy w)
    (looking : Looking P setUp bits strategy rest w) {job : SendJob} {message : List UInt8}
    (made : setUp.message P job = some message) {done later : List Task}
    (tasks : w.tasks = done ++ .sendChunk job .compress :: later) :
    ∃ v, Reaches P start reading strategy v ∧ Looking P setUp bits strategy rest v ∧
      v.outbox = w.outbox ++ [(job.chunkId % 4, message)] ∧
      v.tasks = done ++ .sendChunk job .count :: later := by
  obtain ⟨payload, hpayload, rfl⟩ := Option.map_eq_some_iff.mp made
  obtain ⟨packed, hplain, hencrypt⟩ := Option.bind_eq_some_iff.mp hpayload
  obtain ⟨input, hread, hcompressed⟩ := Option.bind_eq_some_iff.mp hplain
  obtain ⟨live, mapped, aesKey, hbits, total, hmain⟩ := looking
  have hcompress : Reaches P start reading strategy
      { w with tasks := done ++ .sendChunk job (.encrypt packed) :: later } := by
    refine reached.task live tasks ?_ rfl
    rw [runTask, sendChunkTask, mapped, hread]
    simp only [hcompressed]
    rfl
  let called : Endpoint :=
    { w with
      encryptCalls := w.encryptCalls ++ [⟨w.aesKey, Crypto.iv job.chunkId, packed⟩]
      tasks := done ++ .sendChunk job (.encrypt packed) :: later }
  have hcalled : Crypto.encrypt P.ssl packed w.aesKey job.chunkId = some payload := by
    rw [aesKey, hencrypt]
  have hsealed : Reaches P start reading strategy
      { called with
        tasks := done ++ .sendChunk job (.send (job.wireBuffer payload)) :: later } := by
    refine hcompress.task (v := called) live rfl ?_ rfl
    rw [runTask, sendChunkTask]
    simp only [hcalled]
    rfl
  have hsent : Reaches P start reading strategy
      { called with
        outbox := w.outbox ++ [(job.chunkId % 4, job.wireBuffer payload)]
        tasks := done ++ .sendChunk job .count :: later } :=
    hsealed.task live rfl rfl rfl
  exact ⟨_, hsent, ⟨live, mapped, aesKey, hbits, total, hmain⟩, rfl, rfl⟩

/-- The messages of some chunks, each with its stream. -/
def SetUp.frames (P : Platform) (setUp : SetUp) (jobs : List SendJob) :
    List (UInt32 × List UInt8) :=
  jobs.filterMap fun job => (setUp.message P job).map (job.chunkId % 4, ·)

theorem length_frames {jobs : List SendJob}
    (made : ∀ job ∈ jobs, (setUp.message P job).isSome = true) :
    (setUp.frames P jobs).length = jobs.length := by
  rw [SetUp.frames, List.filterMap_length_eq_length]
  intro job hmem
  rw [Option.isSome_map]
  exact made job hmem

/-- The tasks of some chunks hand their messages over, one after another. -/
theorem exists_all_handed {jobs : List SendJob}
    (made : ∀ job ∈ jobs, (setUp.message P job).isSome = true)
    (reached : Reaches P start reading strategy w) (looking : Looking P setUp bits strategy rest w)
    {done : List Task} (tasks : w.tasks = done ++ jobs.map (.sendChunk · .compress)) :
    ∃ v, Reaches P start reading strategy v ∧ Looking P setUp bits strategy rest v ∧
      v.outbox = w.outbox ++ setUp.frames P jobs := by
  induction jobs generalizing w done with
  | nil => exact ⟨w, reached, looking, (List.append_nil _).symm⟩
  | cons job jobs ih =>
      obtain ⟨hfirst, hlater⟩ := List.forall_mem_cons.mp made
      obtain ⟨message, hmessage⟩ := Option.isSome_iff_exists.mp hfirst
      obtain ⟨v, hv, hlooking, houtbox, htasks⟩ := exists_handed reached looking hmessage tasks
      have hnext : v.tasks =
          (done ++ [.sendChunk job .count]) ++ jobs.map (.sendChunk · .compress) := by
        rw [htasks, List.append_assoc]
        rfl
      obtain ⟨u, hu, hlast, hall⟩ := ih hlater hv hlooking hnext
      refine ⟨u, hu, hlast, ?_⟩
      rw [hall, houtbox, SetUp.frames, SetUp.frames, List.filterMap_cons, hmessage,
        List.append_assoc]
      rfl

end Endpoint

namespace Departure

/-! ## A network thread that is behind -/

section

variable {α : Type} {P : Platform} {transport : Listening α Kcp.Sending}

/-- What picks a strategy in a session picks this one. -/
def Detects (strategy : Strategy) (_ : Departure α) (event : DepartureEvent α) : Prop :=
  ∀ own ∈ event.session?, ∀ chosen ∈ own.strategy?, chosen = strategy

/-- The network thread takes some steps of its own while `sendFile` runs. -/
theorem run_network {target : α} {start : Endpoint} {strategy : Strategy}
    {before : List (DepartureEvent α)} {s : Departure α}
    (run : (machine P target start).RunUnder (Detects strategy) before s)
    (sending : s.stage = .sending) {kcps : Fin kNumStreams → Kcp.Sending}
    {events : List (NetEvent α)} (own : ∀ event ∈ events, event.isOwn = true)
    (executed : (Listening.machine Kcp.sending kcps).exec (fun _ _ => true) events s.transport =
      some transport) :
    (machine P target start).RunUnder (Detects strategy) (before ++ events.map .network)
      { s with transport := transport } := by
  induction events generalizing before s with
  | nil =>
      rw [← Option.some.inj executed, List.map_nil, List.append_nil]
      exact run
  | cons event events ih =>
      obtain ⟨hown, hlater⟩ := List.forall_mem_cons.mp own
      rw [Machine.exec, if_pos rfl] at executed
      obtain ⟨next, htaken, hrest⟩ := Option.bind_eq_some_iff.mp executed
      have hstep : (machine P target start).step (.network event) s =
          some { s with transport := next } := by
        show step P (.network event) s = _
        rw [step, if_pos ⟨hown, .inl sending⟩,
          show Listening.step Kcp.sending event s.transport = some next from htaken]
        rfl
      have hnext : (machine P target start).RunUnder (Detects strategy)
          (before ++ [.network event]) { s with transport := next } :=
        run.snoc (by rintro _ ⟨⟩) hstep
      have hrun := ih hnext sending hlater hrest
      rw [List.append_assoc] at hrun
      exact hrun

/-- A session whose streams hold what it has handed over to a transport. -/
def behind (transport : Listening α Kcp.Sending) (w : Endpoint) : Departure α where
  session := w
  transport := handOver w.outbox transport

theorem handOver_append (front rest : List (UInt32 × List UInt8))
    (transport : Listening α Kcp.Sending) :
    handOver (front ++ rest) transport = handOver rest (handOver front transport) := by
  induction front generalizing transport with
  | nil => rfl
  | cons entry front ih => exact ih _

/-- A step of the session, while the network thread takes none. -/
theorem step_behind {event : Event} {w v : Endpoint}
    (reads : event.reading (behind transport w).getWaitSnd = event)
    (taken : Endpoint.step P event w = some v) :
    step P (.session event) (behind transport w) = some (behind transport v) := by
  obtain ⟨frames, hframes⟩ := outbox_prefix_of_step (Endpoint.step_cases taken).2
  have hstep : Endpoint.step P (event.reading (behind transport w).getWaitSnd) w = some v := by
    rw [reads, taken]
  have hhanded : handOver (v.outbox.drop w.outbox.length) (handOver w.outbox transport) =
      handOver v.outbox transport := by
    rw [← hframes, List.drop_left, handOver_append]
  have hmapped := congrArg (Option.map fun session : Endpoint =>
    (⟨session, handOver (session.outbox.drop w.outbox.length) (handOver w.outbox transport),
      .sending⟩ : Departure α)) hstep
  rw [Option.map_some, hhanded] at hmapped
  exact hmapped

/-- A run of the session in which the streams are not emptied. -/
theorem exists_run_behind {target : α} {start w : Endpoint} {strategy : Strategy}
    {before : List (DepartureEvent α)}
    (first : (machine P target start).RunUnder (Detects strategy) before (behind transport start))
    (reached : Endpoint.Reaches P start (fun w => (behind transport w).getWaitSnd) strategy w) :
    ∃ events, (machine P target start).RunUnder (Detects strategy) events (behind transport w) := by
  obtain ⟨events, hrun⟩ := reached
  induction hrun with
  | start => exact ⟨before, first⟩
  | @snoc _ s v event _ reads taken ih =>
      obtain ⟨earlier, hearlier⟩ := ih
      have hdetects : Detects strategy (behind transport s) (.session event) := by
        rintro own ⟨⟩
        exact reads.2
      have htaken : (machine P target start).step (.session event) (behind transport s) =
          some (behind transport v) := step_behind reads.1 taken
      exact ⟨_, hearlier.snoc hdetects htaken⟩

end

/-- The network thread goes through its loop once, and no datagram has arrived. -/
def polling : List (NetEvent Unit) :=
  [.clock 0, .recvfrom none] ++ List.replicate 10 .advance

/-- A transport that has connected and gone through its loop once. -/
def polled : Listening Unit Kcp.Sending :=
  ((Listening.machine Kcp.sending freshKcps).exec (fun _ _ => true) polling
    { remoteAddr := some (), kcps := freshKcps }).getD { kcps := freshKcps }

theorem kcps_polled (stream : Fin kNumStreams) :
    polled.kcps stream = { freshKcps stream with updated := true, tsFlush := Kcp.interval } := by
  revert stream
  decide +kernel

theorem waitSnd_polled (stream : Fin kNumStreams) : (polled.kcps stream).waitSnd = 0 := by
  rw [kcps_polled]
  rfl

theorem lossless_polled (stream : Fin kNumStreams) :
    Kcp.Sending.Lossless [] (polled.kcps stream) := by
  rw [kcps_polled]
  exact ⟨rfl, .refl _⟩

theorem piled_polled (stream : Fin kNumStreams) : (polled.kcps stream).Piled := by
  rw [kcps_polled]
  exact ⟨rfl, by rintro _ ⟨⟩, by rintro _ ⟨⟩⟩

theorem run_polled {P : Platform} {start : Endpoint} (fresh : start.outbox = [])
    (strategy : Strategy) :
    (machine P () start).RunUnder (Detects strategy) (polling.map .network)
      (behind polled start) := by
  have hsome : ((Listening.machine Kcp.sending freshKcps).exec (fun _ _ => true) polling
      { remoteAddr := some (), kcps := freshKcps }).isSome = true := by
    decide +kernel
  have hpolled : (Listening.machine Kcp.sending freshKcps).exec (fun _ _ => true) polling
      { remoteAddr := some (), kcps := freshKcps } = some polled := by
    obtain ⟨reached, hreached⟩ := Option.isSome_iff_exists.mp hsome
    rw [polled, hreached, Option.getD_some]
  have hbehind : behind polled start = { connected () start with transport := polled } := by
    rw [behind, fresh]
    rfl
  rw [hbehind]
  exact run_network .start rfl (by decide) hpolled

/-! ## What the streams hold -/

section

variable {α : Type} {transport : Listening α Kcp.Sending}

theorem given_eq_nil {stream : Fin kNumStreams} {frames : List (UInt32 × List UInt8)}
    (elsewhere : ∀ entry ∈ frames, streamFor entry.1 ≠ stream) : given stream frames = [] := by
  rw [given, List.filter_eq_nil_iff.mpr fun entry hmem => by simpa using elsewhere entry hmem]
  rfl

theorem le_length_given {stream : Fin kNumStreams} {frames : List (UInt32 × List UInt8)} {size : ℕ}
    (here : ∀ entry ∈ frames, streamFor entry.1 = stream)
    (large : ∀ entry ∈ frames, size ≤ (Kcp.Sending.handed entry.2).length) :
    frames.length * size ≤ (given stream frames).length := by
  rw [given, List.filter_eq_self.mpr fun entry hmem => by simpa using here entry hmem,
    List.length_flatMap]
  have hsum := List.card_nsmul_le_sum
    (frames.map fun entry => (Kcp.Sending.handed entry.2).length) size fun length hmem => by
      obtain ⟨entry, hentry, rfl⟩ := List.mem_map.mp hmem
      exact large entry hentry
  rwa [List.length_map, Nat.nsmul_eq_mul] at hsum

/-- No more segments wait than bytes were handed over. -/
theorem getWaitSnd_behind_le (empty : ∀ stream, (transport.kcps stream).waitSnd = 0)
    (w : Endpoint) (streamId : UInt32) :
    (behind transport w).getWaitSnd streamId ≤ (given (streamFor streamId) w.outbox).length := by
  have hfew : ((handOver w.outbox transport).kcps (streamFor streamId)).waitSnd ≤
      (given (streamFor streamId) ([] ++ w.outbox)).length := by
    refine kcp_handOver (fun given kcp => kcp.waitSnd ≤ given.length) ?_ w.outbox
      (empty (streamFor streamId)).le
    intro given rawPayload kcp few
    have hsent := Kcp.Sending.waitSnd_sendChunk_le rawPayload kcp
    rw [List.length_append]
    omega
  exact Int.ofNat_le.mpr hfew

/-- As long as nothing is acknowledged, the segments that wait have room for what was handed
over. -/
theorem length_given_le (created : ∀ stream, Kcp.Sending.Lossless [] (transport.kcps stream))
    (piled : ∀ stream, (transport.kcps stream).Piled) (w : Endpoint) (streamId : UInt32) :
    (given (streamFor streamId) w.outbox).length ≤
      (behind transport w).getWaitSnd streamId * Kcp.mss := by
  have hlossless : Kcp.Sending.Lossless (given (streamFor streamId) ([] ++ w.outbox))
      ((handOver w.outbox transport).kcps (streamFor streamId)) := by
    refine kcp_handOver Kcp.Sending.Lossless ?_ w.outbox (created (streamFor streamId))
    exact fun _ rawPayload _ lossless => Kcp.Sending.lossless_sendChunk rawPayload lossless
  have hpiled : ((handOver w.outbox transport).kcps (streamFor streamId)).Piled := by
    refine kcps_handOver (fun _ kcp => kcp.Piled) ?_ [] w.outbox piled _
    exact fun _ rawPayload _ piled => Kcp.Sending.piled_sendChunk rawPayload piled
  exact Int.ofNat_le.mpr (hpiled.length_le hlossless)

end

/-! ## The bound is missed -/

/-- However a session goes on for which a strategy is detected and that is acknowledged with some
bits, every chunk that passes goes to a stream with at most 32000 pending segments. -/
def Throttled {α : Type} (P : Platform) (target : α) (start : Endpoint) (strategy : Strategy)
    (bits : List Bool) : Prop :=
  ∀ events s, (machine P target start).RunUnder (Detects strategy) events s →
    s.session.resumeBitfield = bits → ∀ chunk,
      Endpoint.Passes P strategy s.getWaitSnd chunk s.session →
        s.getWaitSnd (chunk.id % 4) ≤ 32000

/-- The session of a run has taken a run of its own. -/
theorem exists_session_run {α : Type} {P : Platform} {target : α} {start : Endpoint}
    {events : List (DepartureEvent α)} {s : Departure α}
    (run : (machine P target start).Run events s) :
    ∃ taken, (Endpoint.machine P start).Run taken s.session := by
  induction run with
  | start => exact ⟨[], .start⟩
  | @snoc _ s s' event _ _ taken ih =>
      have hstep : step P event s = some s' := taken
      obtain ⟨earlier, hrun⟩ := ih
      rcases session_of_step hstep with hsame | ⟨own, hown⟩
      · rw [hsame]
        exact ⟨earlier, hrun⟩
      · exact ⟨_, hrun.snoc trivial hown⟩

/-- A bound for all queue lengths is one for those that the streams of a session have. -/
theorem throttled_of_backpressured {α : Type} {P : Platform} (target : α) {start : Endpoint}
    (strategy : Strategy) {bits : List Bool} (bounded : Endpoint.Backpressured P start bits) :
    Throttled P target start strategy bits := by
  intro events s run hbits chunk passes
  obtain ⟨taken, hrun⟩ := exists_session_run (run.mono fun _ _ _ => trivial)
  exact bounded taken s.session hrun hbits strategy s.getWaitSnd chunk passes

/-- The bits of a receiver that lacks just the chunks of the second stream. -/
def lackingSecond (count : ℕ) : List Bool :=
  (List.range count).map fun i => i % 4 != 1

theorem getD_lackingSecond {count i : ℕ} (inside : i < count) :
    (lackingSecond count).getD i false = (i % 4 != 1) := by
  rw [lackingSecond, List.getD_eq_getElem?_getD, List.getElem?_map, List.getElem?_range inside]
  rfl

theorem missing_lackingSecond {count bound : ℕ} (inside : bound ≤ count) :
    Endpoint.missing (lackingSecond count) bound =
      (List.range bound).filter fun i => i % 4 == 1 := by
  refine List.filter_congr fun i hi => ?_
  rw [getD_lackingSecond ((List.mem_range.mp hi).trans_le inside), bne, Bool.not_not]

theorem streamFor_second {id : UInt32} (second : id.toNat % 4 = 1) : streamFor (id % 4) = 1 := by
  apply Fin.ext
  show (id % 4).toNat % 4 = 1
  rw [UInt32.toNat_mod]
  show id.toNat % 4 % 4 = 1
  omega

/-- They are one chunk of four. -/
theorem length_filter_range (n : ℕ) :
    ((List.range (4 * n + 1)).filter fun i => i % 4 == 1).length = n := by
  induction n with
  | zero => rfl
  | succ n ih =>
      have hsame (i : ℕ) : ((4 * n + 1 + i) % 4 == 1) = ((1 + i) % 4 == 1) := by
        rw [show (4 * n + 1 + i) % 4 = (1 + i) % 4 by omega]
      rw [show 4 * (n + 1) + 1 = 4 * n + 1 + 4 by omega, List.range_add, List.filter_append,
        List.length_append, ih, List.filter_map, List.length_map]
      simp only [Function.comp_def, hsame]
      rfl

/-- The message of a chunk that is not compressed. -/
theorem exists_message_none {P : Platform} (lawful : P.ssl.Lawful) {contents : List UInt8}
    (key : List UInt8) {i : ℕ} (inside : i < SourceFile.chunkCount ⟨contents, .NONE⟩) :
    ∃ message, SourceFile.message P ⟨contents, .NONE⟩ key i = some message ∧
      message.length = Chunker.chunkLength contents.length Chunker.kDefaultChunkSize i + 34 := by
  have hpacked : SourceFile.packed P.codecs ⟨contents, .NONE⟩ i =
      some (SourceFile.chunk ⟨contents, .NONE⟩ i) := by
    simp [SourceFile.packed, SmartCompressor.compress, SmartCompressor.getCompressBound]
  obtain ⟨payload, hencrypt, hlength, -⟩ :=
    Crypto.decrypt_encrypt lawful (SourceFile.chunk ⟨contents, .NONE⟩ i) key (UInt32.ofNat i)
  refine ⟨(SourceFile.job ⟨contents, .NONE⟩ 0 i).wireBuffer payload, ?_, ?_⟩
  · rw [SourceFile.message, SourceFile.sealedChunk, hpacked, Option.bind_some, hencrypt]
    rfl
  · rw [SendJob.wireBuffer, List.length_append, ChunkWireHeader.length_encode, hlength,
      SourceFile.length_chunk inside, ChunkWireHeader.size]
    dsimp only
    omega

section

variable {P : Platform} {fileName contents : List UInt8} {pin : UInt32} {onProgress : Bool}
  {disk : List Path} {start : Endpoint} {n : ℕ}

theorem chunkCount_of_whole (whole : contents.length = (4 * n + 2) * Chunker.kDefaultChunkSize)
    (small : 4 * n + 2 < 2 ^ 32) : SourceFile.chunkCount ⟨contents, .NONE⟩ = 4 * n + 2 := by
  have hsize : Chunker.kDefaultChunkSize = 2097152 := rfl
  have hround : (contents.length + Chunker.kDefaultChunkSize - 1) / Chunker.kDefaultChunkSize =
      4 * n + 2 := by
    rw [whole, hsize]
    omega
  have hcount := Chunker.toNat_totalChunks (show 0 < Chunker.kDefaultChunkSize by decide)
    (hround.trans_lt small) (by decide)
  exact hcount.trans hround

/-- What is sent to a receiver that lacks just the chunks of the second stream goes to this stream,
with a full chunk in each message. -/
theorem frames_second (lawful : P.ssl.Lawful)
    (whole : contents.length = (4 * n + 2) * Chunker.kDefaultChunkSize)
    (small : 4 * n + 2 < 2 ^ 32) :
    ∀ job ∈ Endpoint.missingJobs ⟨contents, .NONE⟩ (lackingSecond (4 * n + 2)) (4 * n + 1),
      ∃ message, (Endpoint.SetUp.ofFile fileName contents pin disk).message P job = some message ∧
        streamFor (job.chunkId % 4) = 1 ∧
        Chunker.kDefaultChunkSize ≤ (Kcp.Sending.handed message).length := by
  intro job hmem
  rw [Endpoint.missingJobs, missing_lackingSecond (Nat.le_succ _)] at hmem
  obtain ⟨i, hi, rfl⟩ := List.mem_map.mp hmem
  obtain ⟨hrange, hsecond⟩ := List.mem_filter.mp hi
  have hbefore := List.mem_range.mp hrange
  have hinside : i < SourceFile.chunkCount ⟨contents, .NONE⟩ := by
    rw [chunkCount_of_whole whole small]
    omega
  obtain ⟨message, hmessage, hlength⟩ :=
    exists_message_none lawful (Crypto.deriveKey P.ssl pin) hinside
  have hfull : Chunker.chunkLength contents.length Chunker.kDefaultChunkSize i = 2097152 := by
    rw [Chunker.chunkLength, whole, show Chunker.kDefaultChunkSize = 2097152 from rfl]
    omega
  have hsizable : Sizable message := by
    rw [Sizable, hlength, hfull]
    decide
  refine ⟨message, (Endpoint.message_job pin fileName disk hinside).trans hmessage, ?_, ?_⟩
  · apply streamFor_second
    rw [SourceFile.toNat_job_chunkId 2 hinside]
    exact beq_iff_eq.mp hsecond
  · rw [Kcp.Sending.handed_eq_frame hsizable, length_frame, hlength, hfull]
    decide

/-- With an announcement alone the first stream has room. -/
theorem getWaitSnd_first_le {args : SendArgs} {w : Endpoint} {frames : List (UInt32 × List UInt8)}
    (elsewhere : ∀ entry ∈ frames, streamFor entry.1 = 1)
    (outbox : w.outbox = (0, args.handshake.encode) :: frames) :
    (behind polled w).getWaitSnd 0 ≤ 32000 := by
  have hfew := getWaitSnd_behind_le waitSnd_polled w 0
  have hothers : given (streamFor 0) frames = [] := by
    refine given_eq_nil fun entry hmem => ?_
    rw [elsewhere entry hmem]
    decide
  have hlength : args.handshake.encode.length = 277 :=
    Handshake.length_encode (Handshake.length_nameField _)
  have hsizable : Sizable args.handshake.encode := by
    rw [Sizable, hlength]
    decide
  have hgiven : (given (streamFor 0) w.outbox).length = 281 := by
    rw [outbox, ← List.singleton_append, given_append, hothers, List.append_nil]
    show (Kcp.Sending.handed args.handshake.encode ++ []).length = 281
    rw [List.append_nil, Kcp.Sending.handed_eq_frame hsizable, length_frame, hlength]
  rw [hgiven] at hfew
  exact hfew.trans (by decide)

/-- The messages before the last chunk of such a file are handed over while the streams keep what
they are given, and the last chunk is looked at. -/
theorem exists_looking_last (lawful : P.ssl.Lawful)
    (opened : Endpoint.sendFile fileName contents pin onProgress disk = some start)
    (whole : contents.length = (4 * n + 2) * Chunker.kDefaultChunkSize)
    (small : 4 * n + 2 < 2 ^ 32) :
    ∃ w chunk frames,
      Endpoint.Reaches P start (fun w => (behind polled w).getWaitSnd) .NONE w ∧
      Endpoint.Looking P (Endpoint.SetUp.ofFile fileName contents pin disk)
        (lackingSecond (4 * n + 2)) .NONE [chunk] w ∧
      chunk.id.toNat = 4 * n + 1 ∧
      w.outbox =
        (0, (Endpoint.SetUp.ofFile fileName contents pin disk).args.handshake.encode) :: frames ∧
      frames.length = n ∧
      ∀ entry ∈ frames, streamFor entry.1 = 1 ∧
        Chunker.kDefaultChunkSize ≤ (Kcp.Sending.handed entry.2).length := by
  have hcount := chunkCount_of_whole whole small
  have hlast : 4 * n + 1 < SourceFile.chunkCount ⟨contents, .NONE⟩ := by
    rw [hcount]
    exact Nat.lt_succ_self _
  have hbits : (lackingSecond (4 * n + 2)).length < 2 ^ 32 := by
    rw [lackingSecond, List.length_map, List.length_range]
    exact small
  have hchunks : (Endpoint.SetUp.ofFile fileName contents pin disk).chunks =
      (List.range (4 * n + 1)).map (Chunker.chunkAt contents Chunker.kDefaultChunkSize) ++
        [Chunker.chunkAt contents Chunker.kDefaultChunkSize (4 * n + 1)] := by
    rw [← List.map_singleton, ← List.map_append, ← List.range_succ,
      show (4 * n + 1).succ = 4 * n + 2 from rfl, ← hcount]
    exact if_neg (Endpoint.ne_nil_of_sendFile opened)
  have hsecond := @frames_second P fileName contents pin disk n lawful whole small
  -- All chunks are looked at first, and then the tasks of those that are lacked run.
  obtain ⟨u, hu, hlooking, hidle, houtbox⟩ :=
    Endpoint.exists_looking (P := P) opened hbits (fun w => (behind polled w).getWaitSnd) .NONE
  rw [hchunks] at hlooking
  obtain ⟨v, hv, hat, hsame, hsubmitted⟩ := Endpoint.exists_looking_behind hu
    (fun v hv => getWaitSnd_first_le (by simp) (hv.trans houtbox)) hlooking
  have hlacked : SendJob.ofChunks (lackingSecond (4 * n + 2))
      (Endpoint.SetUp.ofFile fileName contents pin disk).args.fileView .NONE
      ((List.range (4 * n + 1)).map (Chunker.chunkAt contents Chunker.kDefaultChunkSize)) =
        Endpoint.missingJobs ⟨contents, .NONE⟩ (lackingSecond (4 * n + 2)) (4 * n + 1) :=
    Endpoint.ofChunks_eq_missingJobs ⟨contents, .NONE⟩ _ hlast.le
  rw [hidle, hlacked] at hsubmitted
  have hjobs : (Endpoint.missingJobs ⟨contents, .NONE⟩ (lackingSecond (4 * n + 2))
      (4 * n + 1)).length = n := by
    rw [Endpoint.missingJobs, List.length_map, missing_lackingSecond (Nat.le_succ _),
      length_filter_range]
  generalize Endpoint.missingJobs _ _ _ = jobs at hsecond hsubmitted hjobs
  have hmade : ∀ job ∈ jobs,
      ((Endpoint.SetUp.ofFile fileName contents pin disk).message P job).isSome = true := by
    intro job hmem
    obtain ⟨message, hmessage, -⟩ := hsecond job hmem
    rw [hmessage]
    rfl
  obtain ⟨w, hw, hready, hall⟩ := Endpoint.exists_all_handed hmade hv hat hsubmitted
  refine ⟨w, _, _, hw, hready, Chunker.toNat_chunkAt_id hlast,
    hall.trans (by rw [hsame, houtbox, List.singleton_append]),
    (Endpoint.length_frames hmade).trans hjobs, ?_⟩
  intro entry hmem
  obtain ⟨job, hjob, hentry⟩ := List.mem_filterMap.mp hmem
  obtain ⟨message, hmessage, hgood⟩ := hsecond job hjob
  rw [hmessage] at hentry
  rw [← Option.some.inj hentry]
  exact hgood

/-- The last chunk passes, and then it is the stream with all of these messages that it goes to. -/
theorem exists_backlog (lawful : P.ssl.Lawful)
    (opened : Endpoint.sendFile fileName contents pin onProgress disk = some start)
    (whole : contents.length = (4 * n + 2) * Chunker.kDefaultChunkSize)
    (small : 4 * n + 2 < 2 ^ 32) :
    ∃ events s, (machine P () start).RunUnder (Detects .NONE) events s ∧
      s.session.resumeBitfield = lackingSecond (4 * n + 2) ∧
      ∃ chunk, Endpoint.Passes P .NONE s.getWaitSnd chunk s.session ∧
        128 * n ≤ s.getWaitSnd (chunk.id % 4) := by
  have hfresh := Endpoint.outbox_of_sendFile opened
  obtain ⟨w, chunk, frames, hw, hlooking, hid, houtbox, hlength, hframes⟩ :=
    exists_looking_last lawful opened whole small
  have hmod : (4 * n + 1) % 4 = 1 := by omega
  have hstream : streamFor (chunk.id % 4) = 1 := streamFor_second (hid ▸ hmod)
  have hunknown : w.skips chunk = false := by
    rw [Endpoint.skips, hlooking.bits, hid, getD_lackingSecond (Nat.lt_succ_self _), hmod]
    rfl
  obtain ⟨events, hrun⟩ := exists_run_behind (run_polled hfresh .NONE) hw
  obtain ⟨total, hmain⟩ := hlooking.main
  refine ⟨events, behind polled w, hrun, hlooking.bits, chunk, ?_, ?_⟩
  · exact (Endpoint.passes_iff hmain hlooking.live hunknown _ _).mpr
      (getWaitSnd_first_le (fun entry hmem => (hframes entry hmem).1) houtbox)
  · have hbytes := length_given_le lossless_polled piled_polled w (chunk.id % 4)
    have hlarge := le_length_given (fun entry hmem => (hframes entry hmem).1)
      fun entry hmem => (hframes entry hmem).2
    rw [houtbox, hstream, ← List.singleton_append, given_append, List.length_append,
      show Kcp.mss = 16360 from rfl] at hbytes
    rw [hlength, show Chunker.kDefaultChunkSize = 2097152 from rfl] at hlarge
    omega

/-- With more than 250 messages in the stream the bound is missed. -/
theorem not_throttled (lawful : P.ssl.Lawful)
    (opened : Endpoint.sendFile fileName contents pin onProgress disk = some start)
    (whole : contents.length = (4 * n + 2) * Chunker.kDefaultChunkSize)
    (small : 4 * n + 2 < 2 ^ 32) (many : 250 < n) :
    ¬ Throttled P () start .NONE (lackingSecond (4 * n + 2)) := by
  intro throttled
  obtain ⟨events, s, hrun, hbits, chunk, hpasses, hlong⟩ :=
    exists_backlog lawful opened whole small
  have hshort := throttled events s hrun hbits chunk hpasses
  omega

end

/-- `a.zip` -/
def zip : List UInt8 := [97, 46, 122, 105, 112]

theorem detect_zip (sample : List UInt8) :
    SmartCompressor.detect KnownAnswers.host ⟨"a.zip".toList⟩ sample = some .NONE := by
  have hextension : KnownAnswers.host.toNarrow (Path.extension ⟨"a.zip".toList⟩) =
      some [46, 122, 105, 112] := by decide
  have hfilename : KnownAnswers.host.toNarrow (Path.filename ⟨"a.zip".toList⟩) = some zip := by
    decide
  rw [SmartCompressor.detect, hextension, Option.bind_some, if_pos (by decide), hfilename]
  rfl

/-- A file of that size, with no byte but zeros. -/
def zeros (n : ℕ) : List UInt8 :=
  List.replicate ((4 * n + 2) * Chunker.kDefaultChunkSize) 0

/-- The sender of such a file. -/
def zerosSender (n : ℕ) : Endpoint :=
  (Endpoint.sendFile zip (zeros n) 123456 false []).getD {}

theorem sendFile_zeros (n : ℕ) :
    Endpoint.sendFile zip (zeros n) 123456 false [] = some (zerosSender n) := by
  have hnonempty : zeros n ≠ [] := by
    rw [zeros, Ne, List.replicate_eq_nil_iff, show Chunker.kDefaultChunkSize = 2097152 from rfl]
    omega
  rw [zerosSender, Endpoint.sendFile, if_neg hnonempty, Option.getD_some]

theorem not_throttled_zeros {n : ℕ} (small : 4 * n + 2 < 2 ^ 32) (many : 250 < n) :
    ¬ Throttled KnownAnswers.platform () (zerosSender n) .NONE (lackingSecond (4 * n + 2)) :=
  not_throttled KnownAnswers.ssl_lawful (sendFile_zeros n) List.length_replicate small many

/-- A file with 1006 chunks, whose name has it sent as it is, goes to a receiver that has all but
every fourth of them. The last chunk passes while its stream has more than 32000 pending
segments. -/
theorem not_backpressured_of_zeros :
    (∀ sample, SmartCompressor.detect KnownAnswers.host ⟨"a.zip".toList⟩ sample = some .NONE) ∧
      ¬ Throttled KnownAnswers.platform () (zerosSender 251) .NONE (lackingSecond 1006) ∧
      ¬ Endpoint.Backpressured KnownAnswers.platform (zerosSender 251) (lackingSecond 1006) := by
  have hmissed := not_throttled_zeros (n := 251) (by decide) (by decide)
  exact ⟨detect_zip, hmissed, fun bounded => hmissed (throttled_of_backpressured () .NONE bounded)⟩

end Departure

end Sxaint.Net
