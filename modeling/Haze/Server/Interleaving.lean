import Haze.Server.Answers
import Haze.Server.Chunking
import Haze.Server.Pipeline

/-
  Many connections on one server.

  libuv runs one callback after the other, in whatever order the connections become ready, and
  all of them share the context: `TurnStep` is one callback, for one connection. What is read
  from a connection depends on its own bytes alone (`turns_isolated`), although what the requests
  are answered with does not: the sample list and the clock are shared. The answers go where the
  requests came from, and the jobs of all connections stand in the queue in the order in which
  their requests were dispatched (`turns_answered`).

  A connection is known by a number here, and no number is used twice. The server knows it by
  its address, which may be used again once the connection is freed.
-/

open Msgpack Transition

namespace Haze

variable {p : Platform}

/-! ## Turns -/

/-- The context and the connections that have been accepted. -/
structure Service (p : Platform) where
  ctx : Context p
  conns : Nat → Option HazeConn

/-- What a callback brings to a connection. It fails when a write failed or its buffer cannot
grow: the handle is closed then. -/
inductive TurnAction where
  | connect
  | receives (read : Read)
  | fails

/-- A callback and what is seen of it. -/
structure Turn where
  connection : Nat
  action : TurnAction
  events : List Event

def Service.setConn (s : Service p) (c : Nat) (conn : HazeConn) : Service p :=
  { s with conns := Function.update s.conns c (some conn) }

/-- A handle that is closing reads no more. -/
inductive TurnStep : Service p → Turn → Service p → Prop where
  | connect {s : Service p} {c : Nat} :
      s.conns c = none → TurnStep s ⟨c, .connect, []⟩ (s.setConn c hazeConnNew)
  | receives {s : Service p} {c : Nat} {conn : HazeConn} (read : Read) :
      s.conns c = some conn → conn.closed = false →
        TurnStep s ⟨c, .receives read, (hazeOnRead c s.ctx conn read).2.2⟩
          ({ s with ctx := (hazeOnRead c s.ctx conn read).1 }.setConn c
            (hazeOnRead c s.ctx conn read).2.1)
  | fails {s : Service p} {c : Nat} {conn : HazeConn} :
      s.conns c = some conn → conn.closed = false →
        TurnStep s ⟨c, .fails, [.close]⟩ (s.setConn c { conn with closed := true })

/-- A server that has accepted nothing yet. -/
def serviceNew (ctx : Context p) : Service p := { ctx := ctx, conns := fun _ => none }

/-- What is seen of one connection. -/
def eventsOf (turns : List Turn) (c : Nat) : List Event :=
  (turns.filter (·.connection = c)).flatMap (·.events)

def TurnAction.read? : TurnAction → Option Read
  | .receives read => some read
  | _ => none

/-- What was read from one connection. -/
def readsOf (turns : List Turn) (c : Nat) : List Read :=
  (turns.filter (·.connection = c)).filterMap (·.action.read?)

/-- Whether a callback of the connection failed. -/
def FailedOn (turns : List Turn) (c : Nat) : Prop :=
  ∃ turn ∈ turns, turn.connection = c ∧ turn.action = .fails

theorem eventsOf_concat (turns : List Turn) (turn : Turn) (c : Nat) :
    eventsOf (turns ++ [turn]) c =
      eventsOf turns c ++ if turn.connection = c then turn.events else [] := by
  unfold eventsOf
  rw [List.filter_append, List.flatMap_append]
  congr 1
  by_cases h : turn.connection = c <;> simp [h]

theorem readsOf_concat (turns : List Turn) (turn : Turn) (c : Nat) :
    readsOf (turns ++ [turn]) c =
      readsOf turns c ++ if turn.connection = c then turn.action.read?.toList else [] := by
  unfold readsOf
  rw [List.filter_append, List.filterMap_append]
  congr 1
  by_cases h : turn.connection = c
  · cases hread : turn.action.read? <;> simp [h, hread]
  · simp [h]

theorem failedOn_concat {turns : List Turn} {turn : Turn} {c : Nat} :
    FailedOn (turns ++ [turn]) c ↔
      FailedOn turns c ∨ turn.connection = c ∧ turn.action = .fails := by
  unfold FailedOn
  simp [or_and_right, exists_or]

/-! ## What is read does not depend on the context -/

theorem dispatched_pass (db : DispatchBytes p) (rq : Request) (later : List Event) :
    dispatched ([.dispatch rq] ++ db.sends ++ later) = rq :: dispatched later := by
  have hsends : dispatched db.sends = [] := by
    unfold DispatchBytes.sends
    cases db.response <;> cases db.notification <;> rfl
  rw [dispatched_append, dispatched_append, hsends, List.append_nil]
  rfl

theorem any_isClose_pass (db : DispatchBytes p) (rq : Request) (later : List Event) :
    ([Event.dispatch rq] ++ db.sends ++ later).any Event.isClose = later.any Event.isClose := by
  rw [List.any_append, List.any_append, any_isClose_sends, Bool.or_false]
  exact Bool.false_or _

/-- The loop reads, and closes, by the bytes alone. -/
theorem hazeReadLoop_alike (c c' : Nat) (ctx ctx' : Context p) (buffer : Bytes) :
    let out := hazeReadLoop c ctx buffer
    let out' := hazeReadLoop c' ctx' buffer
    out.2.1 = out'.2.1 ∧ dispatched out.2.2 = dispatched out'.2.2 ∧
      out.2.2.any Event.isClose = out'.2.2.any Event.isClose := by
  induction hn : buffer.length using Nat.strong_induction_on generalizing ctx ctx' buffer with
  | _ n ih =>
      rcases eq_or_ne buffer [] with rfl | hbuf
      · simp
      have hstep := hazeReadLoop_step c ctx hbuf rfl
      have hstep' := hazeReadLoop_step c' ctx' hbuf rfl
      cases hread : requestUnmarshal buffer with
      | mk request len =>
          cases request with
          | none =>
              rw [serverDispatch_none c ctx hread, if_pos rfl] at hstep
              rw [serverDispatch_none c' ctx' hread, if_pos rfl] at hstep'
              rw [hstep, hstep']
              exact ⟨rfl, rfl, rfl⟩
          | some rq =>
              rw [serverDispatch_some c ctx hread] at hstep
              rw [serverDispatch_some c' ctx' hread] at hstep'
              dsimp only at hstep hstep'
              rw [if_neg Bool.noConfusion] at hstep hstep'
              rw [hstep, hstep']
              split_ifs with hlen
              · exact ⟨rfl, by rw [dispatched_pass, dispatched_pass],
                  by rw [any_isClose_pass, any_isClose_pass]⟩
              · have hpos := List.length_pos_iff.mpr hbuf
                have hlt : (buffer.drop len).length < n := by
                  rw [List.length_drop]
                  omega
                obtain ⟨hrest, hdispatched, hclose⟩ := ih _ hlt
                  (dispatchRPCMessage ctx c rq).2 (dispatchRPCMessage ctx' c' rq).2 _ rfl
                refine ⟨hrest, ?_, ?_⟩
                · rw [dispatched_pass, dispatched_pass, hdispatched]
                · rw [any_isClose_pass, any_isClose_pass, hclose]

theorem hazeOnRead_alike (c c' : Nat) (ctx ctx' : Context p) (conn : HazeConn)
    (read : Read) :
    (hazeOnRead c ctx conn read).2.1 = (hazeOnRead c' ctx' conn read).2.1 ∧
      dispatched (hazeOnRead c ctx conn read).2.2 =
        dispatched (hazeOnRead c' ctx' conn read).2.2 := by
  match read with
  | .failed => exact ⟨rfl, rfl⟩
  | .data [] => exact ⟨rfl, rfl⟩
  | .data (b :: bs) =>
      obtain ⟨hrest, hdispatched, hclose⟩ :=
        hazeReadLoop_alike c c' ctx ctx' (conn.buffer ++ b :: bs)
      unfold hazeOnRead
      dsimp only
      constructor
      · congr 1
        rw [List.any_append, List.any_append, hclose, hrest]
      · rw [dispatched_append, dispatched_append, hdispatched, hrest]

theorem hazeReads_concat (c : Nat) (ctx : Context p) (conn : HazeConn) (reads : List Read)
    (read : Read) (hopen : (hazeReads c ctx conn reads).2.1.closed = false) :
    hazeReads c ctx conn (reads ++ [read]) =
      let out := hazeReads c ctx conn reads
      let last := hazeOnRead c out.1 out.2.1 read
      (last.1, last.2.1, out.2.2 ++ last.2.2) := by
  rw [hazeReads_append]
  dsimp only
  rw [hazeReads_cons c _ hopen]
  dsimp only
  rw [hazeReads, List.append_nil]

/-! ## One connection among others -/

/-- The reads of a connection, as if no other were there. -/
def readAlone (ctx : Context p) (turns : List Turn) (c : Nat) :
    Context p × HazeConn × List Event :=
  hazeReads c ctx hazeConnNew (readsOf turns c)

/-- A connection stands as it would if only its own reads had come, in any context. -/
structure Isolated (turns : List Turn) (s : Service p) (c : Nat) : Prop where
  dispatched : ∀ ctx : Context p,
    dispatched (eventsOf turns c) = Haze.dispatched (readAlone ctx turns c).2.2
  unknown : s.conns c = none → readsOf turns c = [] ∧ ¬FailedOn turns c
  sound : ∀ conn, s.conns c = some conn → ¬FailedOn turns c →
    ∀ ctx : Context p, conn = (readAlone ctx turns c).2.1
  failed : ∀ conn, s.conns c = some conn → FailedOn turns c →
    ∀ ctx : Context p, conn = { (readAlone ctx turns c).2.1 with closed := true }

theorem Service.setConn_self (s : Service p) (c : Nat) (conn : HazeConn) :
    (s.setConn c conn).conns c = some conn :=
  Function.update_self c _ s.conns

theorem Service.setConn_other (s : Service p) {c c' : Nat} (hne : c ≠ c') (conn : HazeConn) :
    (s.setConn c conn).conns c' = s.conns c' :=
  Function.update_of_ne hne.symm _ s.conns

theorem isolated_new (ctx : Context p) (c : Nat) : Isolated [] (serviceNew ctx) c where
  dispatched _ := rfl
  unknown _ := ⟨rfl, fun ⟨_, hturn, _⟩ => List.not_mem_nil hturn⟩
  sound _ hconn := nomatch hconn
  failed _ hconn := nomatch hconn

/-- Nothing changes for a connection by a turn of another one. -/
theorem Isolated.other {turns : List Turn} {s s' : Service p} {c : Nat} {turn : Turn}
    (h : Isolated turns s c) (hne : turn.connection ≠ c) (hconns : s'.conns c = s.conns c) :
    Isolated (turns ++ [turn]) s' c := by
  have hevents : eventsOf (turns ++ [turn]) c = eventsOf turns c := by
    rw [eventsOf_concat, if_neg hne, List.append_nil]
  have hreads : readsOf (turns ++ [turn]) c = readsOf turns c := by
    rw [readsOf_concat, if_neg hne, List.append_nil]
  have hfailed : FailedOn (turns ++ [turn]) c ↔ FailedOn turns c := by
    rw [failedOn_concat, or_iff_left fun hturn => hne hturn.1]
  have halone : ∀ ctx : Context p, readAlone ctx (turns ++ [turn]) c = readAlone ctx turns c := by
    intro ctx
    rw [readAlone, hreads, readAlone]
  refine ⟨fun ctx => ?_, ?_, fun conn hconn hsound ctx => ?_, fun conn hconn hnow ctx => ?_⟩
  · rw [hevents, halone, h.dispatched ctx]
  · rw [hconns, hreads, hfailed]
    exact h.unknown
  · rw [halone]
    exact h.sound conn (hconns ▸ hconn) (mt hfailed.mpr hsound) ctx
  · rw [halone]
    exact h.failed conn (hconns ▸ hconn) (hfailed.mp hnow) ctx

/-- An open connection is as its reads alone left it. -/
theorem Isolated.of_open {turns : List Turn} {s : Service p} {c : Nat} {conn : HazeConn}
    (h : Isolated turns s c) (hconn : s.conns c = some conn) (hopen : conn.closed = false) :
    ¬FailedOn turns c ∧ ∀ ctx : Context p, (readAlone ctx turns c).2.1 = conn := by
  have hfailed : ¬FailedOn turns c := by
    intro hfailed
    rw [h.failed conn hconn hfailed s.ctx] at hopen
    exact Bool.noConfusion hopen
  exact ⟨hfailed, fun ctx => (h.sound conn hconn hfailed ctx).symm⟩

theorem Isolated.connect {turns : List Turn} {s : Service p} {c : Nat} (h : Isolated turns s c)
    (hfree : s.conns c = none) :
    Isolated (turns ++ [⟨c, .connect, []⟩]) (s.setConn c hazeConnNew) c := by
  obtain ⟨hreads, hfailed⟩ := h.unknown hfree
  have hreads' : readsOf (turns ++ [⟨c, .connect, []⟩]) c = [] := by
    rw [readsOf_concat, hreads, if_pos rfl]
    rfl
  have hfailed' : ¬FailedOn (turns ++ [⟨c, .connect, []⟩]) c := by
    rw [failedOn_concat]
    rintro (hbefore | ⟨-, hnow⟩)
    · exact hfailed hbefore
    · cases hnow
  refine ⟨fun ctx => ?_, fun hnone => ?_, fun conn hconn _ ctx => ?_, fun _ _ hnow => ?_⟩
  · have hbefore := h.dispatched ctx
    rw [readAlone, hreads] at hbefore
    rw [readAlone, hreads', eventsOf_concat, if_pos rfl, List.append_nil, hbefore]
  · rw [Service.setConn_self] at hnone
    cases hnone
  · rw [Service.setConn_self] at hconn
    rw [readAlone, hreads']
    exact (Option.some.inj hconn).symm
  · exact absurd hnow hfailed'

theorem Isolated.receives {turns : List Turn} {s : Service p} {c : Nat} {conn : HazeConn}
    (h : Isolated turns s c) (hconn : s.conns c = some conn) (hopen : conn.closed = false)
    (read : Read) :
    Isolated (turns ++ [⟨c, .receives read, (hazeOnRead c s.ctx conn read).2.2⟩])
      ({ s with ctx := (hazeOnRead c s.ctx conn read).1 }.setConn c
        (hazeOnRead c s.ctx conn read).2.1) c := by
  obtain ⟨hfailed, halone⟩ := h.of_open hconn hopen
  have hfailed' : ¬FailedOn (turns ++ [⟨c, .receives read,
      (hazeOnRead c s.ctx conn read).2.2⟩]) c := by
    rw [failedOn_concat]
    rintro (hbefore | ⟨-, hnow⟩)
    · exact hfailed hbefore
    · cases hnow
  have hreads : ∀ ctx : Context p, readAlone ctx (turns ++ [⟨c, .receives read,
      (hazeOnRead c s.ctx conn read).2.2⟩]) c =
        let out := readAlone ctx turns c
        let last := hazeOnRead c out.1 conn read
        (last.1, last.2.1, out.2.2 ++ last.2.2) := by
    intro ctx
    have hstill : (readAlone ctx turns c).2.1.closed = false := by rw [halone ctx, hopen]
    rw [readAlone, readsOf_concat, if_pos rfl]
    refine (hazeReads_concat c ctx hazeConnNew (readsOf turns c) read hstill).trans ?_
    dsimp only
    rw [← readAlone, halone ctx]
  have hlike := fun ctx : Context p =>
    hazeOnRead_alike c c s.ctx (readAlone ctx turns c).1 conn read
  refine ⟨fun ctx => ?_, fun hnone => ?_, fun conn' hconn' _ ctx => ?_, fun _ _ hnow => ?_⟩
  · rw [hreads, eventsOf_concat, if_pos rfl, dispatched_append, h.dispatched ctx, (hlike ctx).2,
      ← dispatched_append]
  · rw [Service.setConn_self] at hnone
    cases hnone
  · rw [Service.setConn_self] at hconn'
    rw [hreads, ← Option.some.inj hconn', (hlike ctx).1]
  · exact absurd hnow hfailed'

theorem Isolated.fails {turns : List Turn} {s : Service p} {c : Nat} {conn : HazeConn}
    (h : Isolated turns s c) (hconn : s.conns c = some conn) (hopen : conn.closed = false) :
    Isolated (turns ++ [⟨c, .fails, [.close]⟩]) (s.setConn c { conn with closed := true }) c := by
  obtain ⟨-, halone⟩ := h.of_open hconn hopen
  have hfailed : FailedOn (turns ++ [⟨c, .fails, [.close]⟩]) c :=
    failedOn_concat.mpr (.inr ⟨rfl, rfl⟩)
  have hreads : readsOf (turns ++ [⟨c, .fails, [.close]⟩]) c = readsOf turns c := by
    rw [readsOf_concat, if_pos rfl]
    exact List.append_nil _
  refine ⟨fun ctx => ?_, fun hnone => ?_, fun _ _ hnow => ?_, fun conn' hconn' _ ctx => ?_⟩
  · rw [readAlone, hreads, ← readAlone, eventsOf_concat, if_pos rfl, dispatched_append,
      h.dispatched ctx]
    exact List.append_nil _
  · rw [Service.setConn_self] at hnone
    cases hnone
  · exact absurd hfailed hnow
  · rw [Service.setConn_self] at hconn'
    rw [readAlone, hreads, ← readAlone, ← Option.some.inj hconn', halone ctx]

/-- The step lemma: every turn keeps every connection isolated. -/
theorem isolated_step {turns : List Turn} {s s' : Service p} {turn : Turn} {c : Nat}
    (h : Isolated turns s c) (hstep : TurnStep s turn s') : Isolated (turns ++ [turn]) s' c := by
  cases hstep with
  | @connect c' hfree =>
      rcases ne_or_eq c' c with hne | rfl
      · exact h.other hne (Service.setConn_other s hne _)
      · exact h.connect hfree
  | @receives c' conn read hconn hopen =>
      rcases ne_or_eq c' c with hne | rfl
      · exact h.other hne (Service.setConn_other _ hne _)
      · exact h.receives hconn hopen read
  | @fails c' conn hconn hopen =>
      rcases ne_or_eq c' c with hne | rfl
      · exact h.other hne (Service.setConn_other s hne _)
      · exact h.fails hconn hopen

/-- In whatever order the connections are served, the requests read from one of them, and what
stays in its buffer, are those of its own bytes alone. Its handle is closed by its own bytes, or
because a callback of its own failed. -/
theorem turns_isolated {ctx : Context p} {turns : List Turn} {s : Service p}
    (hrun : Run TurnStep (serviceNew ctx) turns s) (c : Nat) (ctx' : Context p) :
    let alone := hazeReads c ctx' hazeConnNew (readsOf turns c)
    dispatched (eventsOf turns c) = dispatched alone.2.2 ∧
      ∀ conn, s.conns c = some conn →
        conn.buffer = alone.2.1.buffer ∧
          (conn.closed = true ↔ alone.2.1.closed = true ∨ FailedOn turns c) := by
  have hiso : Isolated turns s c :=
    hrun.invariant_trace (P := fun turns s => Isolated turns s c) (isolated_new ctx c)
      fun _ _ _ _ h hstep => isolated_step h hstep
  refine ⟨hiso.dispatched ctx', fun conn hconn => ?_⟩
  by_cases hfailed : FailedOn turns c
  · rw [hiso.failed conn hconn hfailed ctx']
    exact ⟨rfl, iff_of_true rfl (.inr hfailed)⟩
  · rw [hiso.sound conn hconn hfailed ctx', or_iff_left hfailed]
    exact ⟨rfl, Iff.rfl⟩

/-- A ping and an import. -/
def pingRequest : Request := ⟨0, 7, some (.ofString "test/ping"), []⟩

def importRequest : Request :=
  ⟨0, 8, some (.ofString "samplelist/import"), [.str (some (.ofString "kick.wav"))]⟩

/-- One request on a connection that is idle. -/
theorem hazeOnRead_one (connection : Nat) (ctx : Context p) {conn : HazeConn} (hidle : conn.Idle)
    {rq : Request} (hplain : rq.Plain) (hshort : rq.Short) (hback : rq.readBack = rq) :
    let out := hazeOnRead connection ctx conn (.data rq.wire)
    (out.1, out.2.2) = dispatchAll connection ctx [rq] ∧ out.2.1.Idle := by
  have hread := hazeOnRead_received connection ctx hidle
    (show ∀ r ∈ [rq], r.Plain from List.forall_mem_singleton.mpr hplain)
  have hreceived : rq.received = rq := (hplain.received_eq_iff.mpr hshort).trans hback
  rw [List.map_singleton, List.map_singleton, List.flatten_singleton, hreceived] at hread
  exact ⟨hread.2, hread.1⟩

theorem pingRequest_read (connection : Nat) (ctx : Context p) {conn : HazeConn}
    (hidle : conn.Idle) {data : RawBuffer}
    (hdata : responseMarshal (responseCreateString 7 (.ofString "pong!")) = some data) :
    let out := hazeOnRead connection ctx conn (.data pingRequest.wire)
    out.1 = ctx ∧ out.2.2 = [.dispatch pingRequest, .send data] := by
  have hplain : pingRequest.Plain := ⟨rfl, Option.some_ne_none _, List.forall_mem_nil _⟩
  have hshort : pingRequest.Short :=
    ⟨by rintro _ ⟨⟩; decide, by decide, List.forall_mem_nil _⟩
  obtain ⟨hserved, -⟩ := hazeOnRead_one connection ctx hidle hplain hshort rfl
  rw [dispatchAll_cons, dispatchRPCMessage_ping ctx connection rfl rfl] at hserved
  obtain ⟨hctx, hevents⟩ := Prod.mk.inj hserved
  refine ⟨hctx, hevents.trans ?_⟩
  show [Event.dispatch pingRequest] ++ ((responseMarshal (responseCreateString 7
    (.ofString "pong!"))).map Event.send).toList ++ [] ++ [] = _
  rw [hdata]
  rfl

theorem importRequest_read (connection : Nat) (ctx : Context p) {conn : HazeConn}
    (hidle : conn.Idle) :
    let out := hazeOnRead connection ctx conn (.data importRequest.wire)
    p.jobs out.1.requests = p.jobs (p.jobQueuePush ctx.requests
        (importJob connection importRequest (some (.ofString "kick.wav")))) ∧
      out.2.1.closed = false ∧ out.2.2 = [.dispatch importRequest] := by
  have hplain : importRequest.Plain := ⟨rfl, Option.some_ne_none _,
    List.forall_mem_singleton.mpr (by simp [Object.Plain, Object.Carried])⟩
  have hshort : importRequest.Short :=
    ⟨by rintro _ ⟨⟩; decide, by decide,
      List.forall_mem_singleton.mpr (by simp [Object.Short]; decide)⟩
  obtain ⟨hserved, hleft⟩ := hazeOnRead_one connection ctx hidle hplain hshort rfl
  rw [dispatchAll_cons, dispatchRPCMessage_import ctx connection rfl] at hserved
  obtain ⟨hctx, hevents⟩ := Prod.mk.inj hserved
  exact ⟨by rw [hctx]; rfl, hleft.2, hevents⟩

/-- Two connections: the first sends a ping, then the second an import before it is lost. -/
theorem twoTurns_run : ∃ (turns : List Turn) (s : Service stillPlatform) (data : RawBuffer),
    Run TurnStep (serviceNew stillContext) turns s ∧
      eventsOf turns 1 = [.dispatch pingRequest, .send data] ∧
      eventsOf turns 2 = [.dispatch importRequest, .close] ∧
      s.ctx.requests = [importJob 2 importRequest (some (.ofString "kick.wav"))] := by
  obtain ⟨data, hdata⟩ := exists_responseMarshal (responseCreateString 7 (.ofString "pong!"))
  obtain ⟨hctx, hping⟩ := pingRequest_read 1 stillContext idle_hazeConnNew hdata
  have hone : Run TurnStep (serviceNew stillContext) ([] ++ [⟨1, .connect, []⟩]) _ :=
    .snoc .nil (.connect rfl)
  have htwo := hone.snoc (.connect (c := 2) rfl)
  have hread := htwo.snoc (.receives (c := 1) (.data pingRequest.wire) rfl rfl)
  obtain ⟨hjob, hopen, himport⟩ := importRequest_read 2
    (hazeOnRead 1 stillContext hazeConnNew (.data pingRequest.wire)).1 idle_hazeConnNew
  have hread' := hread.snoc (.receives (c := 2) (.data importRequest.wire) rfl rfl)
  have hlost := hread'.snoc (.fails (c := 2) (Service.setConn_self _ 2 _) hopen)
  refine ⟨_, _, data, hlost, ?_, ?_, hjob.trans (by rw [hctx]; rfl)⟩
  · simp [eventsOf, serviceNew, Service.setConn, hping]
  · simp [eventsOf, serviceNew, Service.setConn, himport]

theorem turns_isolated_two :
    ∃ (turns : List Turn) (s : Service stillPlatform) (data : RawBuffer),
      Run TurnStep (serviceNew stillContext) turns s ∧
      eventsOf turns 1 = [.dispatch pingRequest, .send data] ∧
      eventsOf turns 2 = [.dispatch importRequest, .close] ∧
      ∀ c, let alone := hazeReads c stillContext hazeConnNew (readsOf turns c)
        dispatched (eventsOf turns c) = dispatched alone.2.2 ∧
          ∀ conn, s.conns c = some conn →
            conn.buffer = alone.2.1.buffer ∧
              (conn.closed = true ↔ alone.2.1.closed = true ∨ FailedOn turns c) := by
  obtain ⟨turns, s, data, hrun, hping, himport, -⟩ := twoTurns_run
  exact ⟨turns, s, data, hrun, hping, himport, fun c => turns_isolated hrun c stillContext⟩

/-! ## The answers of all connections -/

theorem withoutParams_notification {ctx : Context p} {rq : Request} {msg : String}
    {handler : DispatchResult × Context p} (h : handler.1.notification = none) :
    (withoutParams ctx rq msg handler).1.notification = none := by
  unfold withoutParams
  split_ifs
  · rfl
  · exact h

theorem withStrParam_notification {ctx : Context p} {rq : Request}
    {handler : Option CString → DispatchResult × Context p}
    (h : ∀ s, (handler s).1.notification = none) :
    (withStrParam ctx rq handler).1.notification = none := by
  unfold withStrParam
  split
  · rfl
  · exact h _

/-- No method notifies. -/
theorem dispatchRPCMessage_notification (ctx : Context p) (c : Nat) (rq : Request) :
    (dispatchRPCMessage ctx c rq).1.notification = none := by
  unfold dispatchRPCMessage
  cases rq.method with
  | none => rfl
  | some method =>
      dsimp only
      split_ifs
      · exact withoutParams_notification rfl
      · exact withStrParam_notification fun _ => rfl
      · exact withoutParams_notification rfl
      · exact withoutParams_notification rfl
      · exact withStrParam_notification fun _ => rfl
      · exact withStrParam_notification fun _ => rfl
      · exact withStrParam_notification fun _ => rfl
      · rfl

theorem broadcast_notMem_dispatchAll (c : Nat) (ctx : Context p) (requests : List Request)
    (data : RawBuffer) : Event.broadcast data ∉ (dispatchAll c ctx requests).2 := by
  induction requests generalizing ctx with
  | nil => exact List.not_mem_nil
  | cons rq requests ih =>
      have hsends : Event.broadcast data ∉ (dispatchRPCMessage ctx c rq).1.sends := by
        unfold DispatchResult.sends
        rw [dispatchRPCMessage_notification]
        cases (dispatchRPCMessage ctx c rq).1.response.bind responseMarshal <;> simp
      rw [dispatchAll_cons]
      simp [hsends, ih]

/-- A job carries the connection of its request. -/
theorem dispatchAll_jobs (happ : p.Appends) (c : Nat) (ctx : Context p)
    (requests : List Request) : ∃ jobs : List Job,
      p.jobs (dispatchAll c ctx requests).1.requests = p.jobs ctx.requests ++ jobs ∧
        ∀ j ∈ jobs, j.connection = c := by
  induction requests generalizing ctx with
  | nil => exact ⟨[], (List.append_nil _).symm, List.forall_mem_nil _⟩
  | cons rq requests ih =>
      obtain ⟨jobs, hjobs, hown⟩ := ih (dispatchRPCMessage ctx c rq).2
      rw [dispatchAll_cons]
      dsimp only
      rw [hjobs]
      rcases dispatchRPCMessage_answer happ c ctx rq with
        ⟨⟨response, -, -, hkept⟩, -⟩ | ⟨path, -, -, hpushed⟩
      · exact ⟨jobs, by rw [hkept], hown⟩
      · refine ⟨importJob c rq path :: jobs, ?_, List.forall_mem_cons.mpr ⟨rfl, hown⟩⟩
        rw [hpushed, List.append_assoc, List.singleton_append]

/-- What a view sees of all turns, each with the connection it is seen on. -/
def tagged {α : Type} (view : List Event → List α) (turns : List Turn) : List (Nat × α) :=
  turns.flatMap fun turn => (view turn.events).map (Prod.mk turn.connection)

theorem tagged_concat {α : Type} (view : List Event → List α) (turns : List Turn) (turn : Turn) :
    tagged view (turns ++ [turn]) =
      tagged view turns ++ (view turn.events).map (Prod.mk turn.connection) := by
  unfold tagged
  rw [List.flatMap_append, List.flatMap_singleton]

/-- The answers, each with the connection its request came from: a response is sent on that
connection, and a job names it. -/
structure Routed (ctx : Context p) (turns : List Turn) (s : Service p)
    (answers : List (Nat × Answer)) : Prop where
  msgids : answers.map (Prod.map id Answer.msgid) =
    (tagged dispatched turns).map (Prod.map id Request.msgid)
  responses : (answers.filterMap fun a => a.2.toResponse.map fun r => (a.1, responseMarshal r)) =
    (tagged sent turns).map (Prod.map id some)
  jobs : p.jobs s.ctx.requests =
    p.jobs ctx.requests ++ answers.filterMap fun a => a.2.toJob
  own : ∀ a ∈ answers, ∀ j, a.2 = .job j → j.connection = a.1
  silent : ∀ turn ∈ turns, ∀ data, Event.broadcast data ∉ turn.events

theorem routed_new (ctx : Context p) : Routed ctx [] (serviceNew ctx) [] where
  msgids := rfl
  responses := rfl
  jobs := (List.append_nil _).symm
  own := List.forall_mem_nil _
  silent := List.forall_mem_nil _

/-- A turn that dispatches nothing. -/
theorem Routed.quiet {ctx : Context p} {turns : List Turn} {s s' : Service p}
    {answers : List (Nat × Answer)} {turn : Turn} (h : Routed ctx turns s answers)
    (hctx : s'.ctx = s.ctx) (hevents : ∀ e ∈ turn.events, e.isClose = true) :
    Routed ctx (turns ++ [turn]) s' answers := by
  have hdispatched : dispatched turn.events = [] := filterMap_closing rfl hevents
  have hsent : sent turn.events = [] := filterMap_closing rfl hevents
  refine ⟨?_, ?_, ?_, h.own, ?_⟩
  · rw [tagged_concat, hdispatched, h.msgids, List.map_nil, List.append_nil]
  · rw [tagged_concat, hsent, h.responses, List.map_nil, List.append_nil]
  · rw [hctx, h.jobs]
  · refine List.forall_mem_append.mpr ⟨h.silent, List.forall_mem_singleton.mpr ?_⟩
    intro data hdata
    exact Bool.noConfusion (hevents _ hdata)

/-- A turn that reads answers the requests it dispatches. -/
theorem Routed.receives {ctx : Context p} {turns : List Turn} {s s' : Service p}
    {answers : List (Nat × Answer)} {turn : Turn} (happ : p.Appends)
    (h : Routed ctx turns s answers)
    (hserves : Serves turn.connection s.ctx (s'.ctx, turn.events)) :
    ∃ answers', Routed ctx (turns ++ [turn]) s' answers' := by
  obtain ⟨⟨more, hmsgids, hsent, hqueued⟩, -⟩ := hserves.accounts happ
  obtain ⟨requests, closing, -, hclosing, hout⟩ := hserves
  obtain ⟨hctx, hevents⟩ := Prod.mk.inj hout
  obtain ⟨jobs, hjobs, hown⟩ := dispatchAll_jobs happ turn.connection s.ctx requests
  have hmore : more.filterMap Answer.toJob = jobs := by
    rw [← hctx] at hjobs
    exact List.append_cancel_left (hqueued.symm.trans hjobs)
  refine ⟨answers ++ more.map (Prod.mk turn.connection), ?_, ?_, ?_, ?_, ?_⟩
  · rw [tagged_concat, List.map_append, List.map_append, h.msgids]
    congr 1
    rw [List.map_map, List.map_map]
    have htag := congrArg (List.map (Prod.mk turn.connection)) hmsgids
    rwa [List.map_map, List.map_map] at htag
  · rw [tagged_concat, List.filterMap_append, List.map_append, h.responses]
    congr 1
    have htag := congrArg (List.map (Prod.mk turn.connection)) hsent
    rw [List.map_map, List.map_map, List.map_filterMap] at htag
    rw [List.filterMap_map, List.map_map]
    exact htag
  · rw [List.filterMap_append, ← List.append_assoc, ← h.jobs, List.filterMap_map]
    exact hqueued
  · refine List.forall_mem_append.mpr ⟨h.own, ?_⟩
    rintro a ha j hj
    obtain ⟨answer, hanswer, rfl⟩ := List.mem_map.mp ha
    refine hown j ?_
    rw [← hmore]
    exact List.mem_filterMap.mpr ⟨answer, hanswer, congrArg Answer.toJob hj⟩
  · refine List.forall_mem_append.mpr ⟨h.silent, List.forall_mem_singleton.mpr ?_⟩
    intro data
    rw [hevents]
    refine fun hmem => (List.mem_append.mp hmem).elim
      (broadcast_notMem_dispatchAll turn.connection s.ctx requests data) fun hmem => ?_
    exact Bool.noConfusion (hclosing _ hmem)

theorem routed_step {ctx : Context p} {turns : List Turn} {s s' : Service p} {turn : Turn}
    (happ : p.Appends) {answers : List (Nat × Answer)} (h : Routed ctx turns s answers)
    (hstep : TurnStep s turn s') : ∃ answers', Routed ctx (turns ++ [turn]) s' answers' := by
  cases hstep with
  | connect => exact ⟨answers, h.quiet rfl (List.forall_mem_nil _)⟩
  | receives => exact h.receives happ (hazeOnRead_serves _ _ _ _)
  | fails => exact ⟨answers, h.quiet rfl (List.forall_mem_singleton.mpr rfl)⟩

/-- In whatever order the connections are served, every request is answered once: with a response
on the connection it came from, or with a job that names it. The responses are sent, and the jobs
queued, in the order of the requests, and nothing is sent to anyone else. -/
theorem turns_answered {ctx : Context p} (happ : p.Appends) {turns : List Turn} {s : Service p}
    (hrun : Run TurnStep (serviceNew ctx) turns s) : ∃ answers, Routed ctx turns s answers :=
  hrun.invariant_trace (P := fun turns s => ∃ answers, Routed ctx turns s answers)
    ⟨[], routed_new ctx⟩ fun _ _ _ _ ⟨_, h⟩ hstep => routed_step happ h hstep

theorem turns_answered_two :
    ∃ (turns : List Turn) (s : Service stillPlatform) (data : RawBuffer)
      (answers : List (Nat × Answer)),
      Run TurnStep (serviceNew stillContext) turns s ∧
      eventsOf turns 1 = [.dispatch pingRequest, .send data] ∧
      eventsOf turns 2 = [.dispatch importRequest, .close] ∧
      s.ctx.requests = [importJob 2 importRequest (some (.ofString "kick.wav"))] ∧
      Routed stillContext turns s answers := by
  obtain ⟨turns, s, data, hrun, hping, himport, hjob⟩ := twoTurns_run
  obtain ⟨answers, hrouted⟩ := turns_answered (p := stillPlatform) (fun _ _ => rfl) hrun
  exact ⟨turns, s, data, answers, hrun, hping, himport, hjob, hrouted⟩

end Haze
