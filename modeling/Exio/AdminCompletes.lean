import Exio.AdminExit
/-!
# AdminCompletes — a client that waits can be answered

A client waits with its request in the queue, and the connection stays up.  Then, whatever the threads have done so far, there are
steps of the reactors, the workers and the main thread alone that lead to where the request was served and every answer that the
server's queue took was printed (`rpc_completes`): the request is sent and read, the server's worker gets through its messages,
what it has sent is sent and read, the client's worker gets through its own.  If one of the answers was the last, the main thread
returns with its code.
-/
namespace Exio

open Sam

section

variable {σ τ : Type}

/-- A step of the reactors, the workers, and the main thread. -/
def Rpc.Moves (s : Rpc σ τ) : RpcAct σ τ → Prop
  | .main _ | .hear | .serve _ => True
  | .up a                      => s.toServer.Moves a
  | .down a                    => s.toClient.Moves a
  | _                          => False

theorem Wire.Moves.enqueued {w : Wire} : ∀ {a : WireAct}, w.Moves a → a.enqueued = none
  | .handleOutput _, _ | .handleInput _, _ | .doWork, _ => rfl

theorem Rpc.Moves.keeps {s : Rpc σ τ} : ∀ {a : RpcAct σ τ}, s.Moves a → RpcKeeps s a
  | .main _, _ | .hear, _ | .serve _, _ => trivial
  | .up _, h | .down _, h               => ⟨h.fits, fun m hm => by rw [Wire.Moves.enqueued h] at hm; cases hm⟩

variable {e : RpcSetup σ τ} {s t : Rpc σ τ}

/-! ## What the server has got through -/

/-- While the session is valid every request the server took is served, and it stays valid while there are messages. -/
structure Rpc.Serving (s : Rpc σ τ) : Prop where
  count  : s.handled ≤ (delivered s.toServer.events).length
  served : s.toClient.sessionValid = true →
    ((delivered s.toServer.events).take s.handled).filter isRequest = s.served.map Served.request
  closed : s.toClient.sessionValid = false → s.toServer.input.cb = false

namespace Rpc.Serving

/-- A step of the connection to the server. -/
theorem up (h : s.Serving) {a : WireAct} {w : Wire} (hw : e.wire s.toServer a = some w) :
    ({ s with toServer := w } : Rpc σ τ).Serving := by
  have hkeeps := wireStep_keeps hw
  have hsame : (delivered w.events).take s.handled = (delivered s.toServer.events).take s.handled := by
    obtain ⟨rest, hrest⟩ := hkeeps.delivered
    rw [← hrest, List.take_append_of_le_length h.count]
  exact ⟨h.count.trans hkeeps.delivered.length_le, fun hv => hsame ▸ h.served hv, fun hv => (hkeeps.dead (h.closed hv)).1⟩

/-- A step of the connection to the client that leaves the session valid. -/
theorem down (h : s.Serving) {a : WireAct} (ha : a ≠ .processClose) {w : Wire} (hw : e.wire s.toClient a = some w) :
    ({ s with toClient := w } : Rpc σ τ).Serving := by
  have hvalid := (wireStep_keeps hw).valid ha
  exact ⟨h.count, fun hv => h.served (hvalid ▸ hv), fun hv => h.closed (hvalid ▸ hv)⟩

/-- The server takes a message. -/
theorem take (h : s.Serving) {m : TxMessage} (hm : (delivered s.toServer.events)[s.handled]? = some m) {t : Rpc σ τ}
    (hup : t.toServer = s.toServer) (hdown : t.toClient = s.toClient) (hhandled : t.handled = s.handled + 1)
    (hserved : s.toClient.sessionValid = true →
      t.served.map Served.request = s.served.map Served.request ++ [m].filter isRequest) : t.Serving := by
  refine ⟨?_, fun hv => ?_, fun hv => ?_⟩
  · rw [hup, hhandled]
    exact (List.getElem?_eq_some_iff.1 hm).1
  · rw [hdown] at hv
    rw [hup, hhandled, List.take_add_one, hm, Option.toList_some, List.filter_append, h.served hv, hserved hv]
  · rw [hdown] at hv
    rw [hup]
    exact h.closed hv

theorem step (h : s.Serving) {a : RpcAct σ τ} (hs : s.Goes e a t) : t.Serving := by
  cases hs with
  | logon _ hw | request _ hw | clientClosed _ _ _ hw | up _ hw =>
    have hup := h.up hw
    exact ⟨hup.count, hup.served, hup.closed⟩
  | describe _ hw | reply _ hw | stock _ hw | close _ hw | later hw =>
    have hdown := h.down (by simp) hw
    exact ⟨hdown.count, hdown.served, hdown.closed⟩
  | down ha hw =>
    have hdown := h.down ha hw
    exact ⟨hdown.count, hdown.served, hdown.closed⟩
  | serverClosed hcb hw =>
    cases hw
    exact ⟨h.count, fun hv => Bool.noConfusion hv, fun _ => hcb⟩
  | @skip addr m hpc hm hno =>
    refine h.take hm rfl rfl rfl fun hv => ?_
    rw [List.filter_cons_of_neg (by simp [hno hv]), List.filter_nil, List.append_nil]
  | @welcome addr m hpc hm hlogon =>
    refine h.take hm rfl rfl rfl fun _ => ?_
    have hno : isRequest m = false := by
      rw [isRequest, hlogon]
      decide
    rw [List.filter_cons_of_neg (by simp [hno]), List.filter_nil, List.append_nil]
  | @answer addr m hpc hm hreq r hr v hv =>
    refine h.take hm rfl rfl rfl fun _ => ?_
    rw [filter_request hreq, List.map_append, hv]
    rfl
  | done | hear | stay | adminAdd | appChange => exact ⟨h.count, h.served, h.closed⟩

end Rpc.Serving

theorem rpc_serving {admins : Admins τ} {app : σ} (hs : Steps.Reaches (rpcStep e) RpcKeeps (.new admins app) s) : s.Serving :=
  hs.invariant ⟨Nat.le_refl _, fun _ => rfl, fun hv => Bool.noConfusion hv⟩ fun h _ hs => h.step (rpcStep_goes hs)

/-! ## While the connection is up -/

structure Rpc.Live (e : RpcSetup σ τ) (s : Rpc σ τ) : Prop where
  inv     : s.Inv e
  serving : s.Serving
  up      : s.toServer.ioClosed = false
  down    : s.toClient.ioClosed = false

theorem Wire.Moves.ne_handleClose {w : Wire} {a : WireAct} (h : w.Moves a) : a ≠ .handleClose := by
  rintro rfl
  exact h

namespace Rpc.Live

/-- Both sessions are valid: nobody was told that the connection ended. -/
theorem valid (h : s.Live e) : s.toServer.sessionValid = true ∧ s.toClient.sessionValid = true := by
  constructor
  · cases hv : s.toServer.sessionValid with
    | true => rfl
    | false =>
      obtain ⟨-, hcb, -⟩ := h.inv.hearing.closed hv
      exact absurd ((h.inv.answering.down.dead hcb).1.symm.trans h.down) (by decide)
  · cases hv : s.toClient.sessionValid with
    | true => rfl
    | false =>
      have hcb := h.serving.closed hv
      exact absurd ((h.inv.asking.up.dead hcb).1.symm.trans h.up) (by decide)

theorem step (h : s.Live e) {a : RpcAct σ τ} (ha : s.Moves a) (hs : rpcStep e s a = some t) : t.Live e := by
  have hgoes := rpcStep_goes hs
  have hclosed : t.toServer.ioClosed = false ∧ t.toClient.ioClosed = false := by
    cases hgoes with
    | logon _ hw | request _ hw => exact ⟨((wireStep_keeps hw).ioClosed (by simp)).trans h.up, h.down⟩
    | describe _ hw | reply _ hw | stock _ hw | close _ hw => exact ⟨h.up, ((wireStep_keeps hw).ioClosed (by simp)).trans h.down⟩
    | up _ hw => exact ⟨((wireStep_keeps hw).ioClosed (Wire.Moves.ne_handleClose ha)).trans h.up, h.down⟩
    | down _ hw => exact ⟨h.up, ((wireStep_keeps hw).ioClosed (Wire.Moves.ne_handleClose ha)).trans h.down⟩
    | clientClosed | serverClosed | later | adminAdd | appChange => cases ha
    | done | hear | skip | welcome | answer | stay => exact ⟨h.up, h.down⟩
  exact ⟨rpcStep_inv h.inv ha.keeps hs, h.serving.step hgoes, hclosed.1, hclosed.2⟩

theorem run (h : s.Live e) (ht : Steps.Reaches (rpcStep e) Rpc.Moves s t) : t.Live e :=
  ht.invariant h fun h ha hs => h.step ha hs

end Rpc.Live

/-! ## The connections -/

theorem reaches_up {w : Wire} (hw : Steps.Reaches (wireStep e.ioHandle e.beyond) Wire.Moves s.toServer w) :
    Steps.Reaches (rpcStep e) Rpc.Moves s { s with toServer := w } := by
  induction hw with
  | refl => exact .refl
  | @step w w' a _ ha hstep ih =>
    refine ih.step (a := .up a) ha ?_
    have hwire : e.wire w a = some w' := hstep
    cases a with
    | enqueueToSend _ _ | close _ | processClose | handleClose => cases ha
    | handleOutput _ | handleInput _ | doWork => simp [rpcStep, hwire]

theorem reaches_down {w : Wire} (hw : Steps.Reaches (wireStep e.ioHandle e.beyond) Wire.Moves s.toClient w) :
    Steps.Reaches (rpcStep e) Rpc.Moves s { s with toClient := w } := by
  induction hw with
  | refl => exact .refl
  | @step w w' a _ ha hstep ih =>
    refine ih.step (a := .down a) ha ?_
    have hwire : e.wire w a = some w' := hstep
    cases a with
    | enqueueToSend _ _ | close _ | processClose | handleClose => cases ha
    | handleOutput _ | handleInput _ | doWork => simp [rpcStep, hwire]

/-! ## The server's worker -/

def ServePc.left : ServePc → Nat
  | .next                  => 0
  | .finish _ | .describe _ => 1
  | .stock ..              => 2
  | .reply ..              => 3

/-- The messages that the worker has not taken. -/
def Rpc.waiting (s : Rpc σ τ) : Nat := (delivered s.toServer.events).length - s.handled

def Rpc.serveLeft (s : Rpc σ τ) : Nat := 4 * s.waiting + s.serve.left

/-- One turn of the server's worker. -/
structure Rpc.Serves (s t : Rpc σ τ) : Prop where
  toServer : t.toServer = s.toServer
  main     : t.main = s.main
  input    : t.toClient.input = s.toClient.input
  left     : t.serveLeft < s.serveLeft

theorem wire_enqueues (e : RpcSetup σ τ) (w : Wire) (m : TxMessage) :
    ∃ w', e.wire w (.enqueueToSend 8 m) = some w' ∧ w'.input = w.input := by
  have hqueue : (wireStep e.ioHandle e.beyond w (.enqueueToSend 8 m)).map (fun w' => some w'.out.q) = some _ :=
    wireStep_enqueueToSend (by decide) m
  obtain ⟨w', hw', -⟩ := Option.map_eq_some_iff.1 hqueue
  exact ⟨w', hw', wireStep_enqueueToSend_input hw'⟩

theorem wire_closes (e : RpcSetup σ τ) (w : Wire) : ∃ w', e.wire w (.close 8) = some w' ∧ w'.input = w.input := ⟨_, rfl, rfl⟩

/-- What the worker does at once with a message it takes. -/
theorem takeMessage_spec (m : TxMessage) : (takeMessage e s m).toServer = s.toServer ∧ (takeMessage e s m).toClient = s.toClient ∧
    (takeMessage e s m).main = s.main ∧ (takeMessage e s m).handled = s.handled + 1 ∧
    (s.serve = .next → (takeMessage e s m).serve.left ≤ 3) := by
  unfold takeMessage
  dsimp only
  split
  · exact ⟨rfl, rfl, rfl, rfl, fun hpc => by rw [hpc]; decide⟩
  · split
    · exact ⟨rfl, rfl, rfl, rfl, fun _ => show 1 ≤ 3 by decide⟩
    · split
      · refine ⟨rfl, rfl, rfl, rfl, fun _ => ?_⟩
        dsimp only
        split
        · exact Nat.le_refl 3
        · exact show 1 ≤ 3 by decide
      · exact ⟨rfl, rfl, rfl, rfl, fun hpc => by rw [hpc]; decide⟩

/-- **The server's worker can go on until it has got through its messages.** -/
theorem Rpc.serves (e : RpcSetup σ τ) (hleft : ¬ (s.serve.idle = true ∧ s.waiting = 0)) :
    ∃ t, rpcStep e s (.serve 8) = some t ∧ s.Serves t := by
  cases hpc : s.serve with
  | next =>
    have hwaits : 0 < s.waiting := Nat.pos_of_ne_zero fun hzero => hleft ⟨by rw [hpc]; rfl, hzero⟩
    have hlt : s.handled < (delivered s.toServer.events).length := by
      unfold Rpc.waiting at hwaits
      omega
    obtain ⟨htoServer, htoClient, hmain, hhandled, hserve⟩ :=
      takeMessage_spec (e := e) (s := s) (delivered s.toServer.events)[s.handled]
    have hpcLeft := hserve hpc
    have hwaiting : (takeMessage e s (delivered s.toServer.events)[s.handled]).waiting + 1 = s.waiting := by
      unfold Rpc.waiting
      rw [htoServer, hhandled]
      omega
    refine ⟨takeMessage e s (delivered s.toServer.events)[s.handled], ?_, htoServer, hmain, by rw [htoClient], ?_⟩
    · simp [rpcStep, serveStep, hpc, List.getElem?_eq_getElem hlt]
    · unfold Rpc.serveLeft
      omega
  | describe m =>
    obtain ⟨w, hw, hinput⟩ := wire_enqueues e s.toClient m
    refine ⟨{ s with serve := .next, toClient := w }, by simp [rpcStep, serveStep, hpc, hw], rfl, rfl, hinput, ?_⟩
    simp [Rpc.serveLeft, Rpc.waiting, hpc, ServePc.left]
  | reply r reqseqno =>
    obtain ⟨w, hw, hinput⟩ := wire_enqueues e s.toClient r.message
    refine ⟨{ s with
      serve    := if s.toClient.enqueueFails 8 r.message then .stock r.message reqseqno else .finish r.message
      toClient := w
      sent     := s.sent ++ s.toClient.taken w }, by simp [rpcStep, serveStep, hpc, hw], rfl, rfl, hinput, ?_⟩
    cases s.toClient.enqueueFails 8 r.message with
    | false => simp [Rpc.serveLeft, Rpc.waiting, hpc, ServePc.left]
    | true => simp [Rpc.serveLeft, Rpc.waiting, hpc, ServePc.left]
  | stock resp reqseqno =>
    obtain ⟨w, hw, hinput⟩ := wire_enqueues e s.toClient (enqueueFailed reqseqno)
    refine ⟨{ s with serve := .finish resp, toClient := w, sent := s.sent ++ s.toClient.taken w },
      by simp [rpcStep, serveStep, hpc, hw], rfl, rfl, hinput, ?_⟩
    simp [Rpc.serveLeft, Rpc.waiting, hpc, ServePc.left]
  | finish resp =>
    by_cases hclose : hasPending resp = false ∧ s.peer.autoclose = true
    · obtain ⟨w, hw, hinput⟩ := wire_closes e s.toClient
      refine ⟨{ s with serve := .next, toClient := w }, by simp [rpcStep, serveStep, hpc, hclose, hw], rfl, rfl, hinput, ?_⟩
      simp [Rpc.serveLeft, Rpc.waiting, hpc, ServePc.left]
    · refine ⟨{ s with serve := .next }, by simp only [rpcStep, serveStep, hpc, if_neg hclose], rfl, rfl, rfl, ?_⟩
      simp [Rpc.serveLeft, Rpc.waiting, hpc, ServePc.left]

theorem Rpc.serves_all (e : RpcSetup σ τ) (s : Rpc σ τ) :
    ∃ t, Steps.Reaches (rpcStep e) Rpc.Moves s t ∧ t.toServer = s.toServer ∧ t.main = s.main ∧
      t.toClient.input = s.toClient.input ∧ t.waiting = 0 := by
  have hnear : ∀ {u : Rpc σ τ}, (u.toServer = s.toServer ∧ u.main = s.main ∧ u.toClient.input = s.toClient.input) →
      ¬ (u.serve.idle = true ∧ u.waiting = 0) → ∃ t, Steps.Reaches (rpcStep e) Rpc.Moves u t ∧
        (t.toServer = s.toServer ∧ t.main = s.main ∧ t.toClient.input = s.toClient.input) ∧ t.serveLeft < u.serveLeft := by
    rintro u ⟨htoServer, hmain, hinput⟩ hleft
    obtain ⟨t, ht, hserves⟩ := Rpc.serves e hleft
    exact ⟨t, .step (a := .serve 8) .refl trivial ht,
      ⟨hserves.toServer.trans htoServer, hserves.main.trans hmain, hserves.input.trans hinput⟩, hserves.left⟩
  obtain ⟨t, ht, ⟨htoServer, hmain, hinput⟩, -, hwaiting⟩ := Steps.descend Rpc.serveLeft hnear (s := s) ⟨rfl, rfl, rfl⟩
  exact ⟨t, ht, htoServer, hmain, hinput, hwaiting⟩

/-! ## The client's worker -/

theorem Rpc.Live.hears_all (h : s.Live e) :
    ∃ t, Steps.Reaches (rpcStep e) Rpc.Moves s t ∧ t.toClient = s.toClient ∧ t.main = s.main ∧ t.served = s.served ∧
      t.heard = (delivered s.toClient.events).length := by
  have hnear : ∀ {u : Rpc σ τ}, (u.Live e ∧ u.toClient = s.toClient ∧ u.main = s.main ∧ u.served = s.served) →
      ¬ u.heard = (delivered s.toClient.events).length → ∃ t, Steps.Reaches (rpcStep e) Rpc.Moves u t ∧
        (t.Live e ∧ t.toClient = s.toClient ∧ t.main = s.main ∧ t.served = s.served) ∧
        (delivered s.toClient.events).length - t.heard < (delivered s.toClient.events).length - u.heard := by
    rintro u ⟨hlive, htoClient, hmain, hserved⟩ hleft
    have hcount := hlive.inv.hearing.count
    have hlt : u.heard < (delivered u.toClient.events).length := by
      rw [htoClient] at hcount ⊢
      omega
    have hhear : ∃ t, rpcStep e u .hear = some t ∧ t.toClient = u.toClient ∧ t.main = u.main ∧ t.served = u.served ∧
        t.heard = u.heard + 1 := by
      simp only [rpcStep, List.getElem?_eq_getElem hlt, Option.map_some]
      exact ⟨_, rfl, rfl, rfl, rfl, rfl⟩
    obtain ⟨t, ht, htoClient', hmain', hserved', hheard⟩ := hhear
    have hreach : Steps.Reaches (rpcStep e) Rpc.Moves u t := .step (a := .hear) .refl trivial ht
    refine ⟨t, hreach, ⟨hlive.run hreach, htoClient'.trans htoClient, hmain'.trans hmain, hserved'.trans hserved⟩, ?_⟩
    rw [htoClient] at hlt
    omega
  obtain ⟨t, ht, ⟨-, htoClient, hmain, hserved⟩, hheard⟩ :=
    Steps.descend (fun u => (delivered s.toClient.events).length - u.heard) hnear (s := s) ⟨h, rfl, rfl, rfl⟩
  exact ⟨t, ht, htoClient, hmain, hserved, hheard⟩

/-- **When all answers were heard they are printed**, and the main thread returns if there was a last one. -/
theorem Rpc.Live.returns (h : s.Live e) (hmain : s.main = .wait)
    (hheard : s.heardMessages.filter isAnswer = s.sent ++ s.later) :
    ∃ t, Steps.Reaches (rpcStep e) Rpc.Moves s t ∧ t.served = s.served ∧
      t.listener.out = (t.sent ++ t.later).flatMap (printResponse e.atoi) ∧
      ∀ m ∈ t.sent ++ t.later, hasPending m = false → t.main = .done (rescodeOf e.atoi m) := by
  have hanswering := h.inv.answering
  have hlistener : s.listener = listened e.atoi (s.sent ++ s.later) := by
    rw [h.inv.hearing.opened h.valid.1, ← hheard, listened_filter]
  rcases listened_cases hanswering.responses hanswering.pending (List.prefix_refl _) with
    ⟨hpending, hlistened⟩ | ⟨init, last, hall, -, hinit, hlast, hlistened⟩
  · rw [hlistened] at hlistener
    refine ⟨s, .refl, rfl, by rw [hlistener], fun m hm hfinal => ?_⟩
    exact absurd ((hpending m hm).symm.trans hfinal) (by decide)
  · rw [hlistened] at hlistener
    have hdone : rpcStep e s (.main 8) = some { s with main := .done (rescodeOf e.atoi last) } := by
      simp [rpcStep, mainStep, hmain, hlistener]
    refine ⟨_, .step (a := .main 8) .refl trivial hdone, rfl, by rw [hlistener], fun m hm hfinal => ?_⟩
    have hm : m ∈ init ++ [last] := hall ▸ hm
    rcases List.mem_append.1 hm with hm | hm
    · exact absurd ((hinit m hm).symm.trans hfinal) (by decide)
    · rw [List.mem_singleton.1 hm]

end

/-- **A client that waits can be answered.**  In any state of any interleaving in which the main thread waits, the queue took the
request, and the connection is up in both directions: there are steps of the reactors, of the workers and of the main thread
that lead to where the server has carried out the request and the client has printed every answer the server's queue took; and
if one of them was not to be followed by others, the main thread has returned with its code.  What the two sides have read and
not offered yet fits an `int`. -/
theorem rpc_completes {σ τ : Type} {e : RpcSetup σ τ} {admins : Admins τ} (hok : admins.Ok) {app : σ} {s : Rpc σ τ}
    (hs : Steps.Reaches (rpcStep e) RpcKeeps (.new admins app) s) (hmain : s.main = .wait)
    (hasked : e.request ∈ s.toServer.messages) (hup : s.toServer.ioClosed = false) (hdown : s.toClient.ioClosed = false)
    (hserver : s.toServer.Fits .doWork) (hclient : s.toClient.Fits .doWork) :
    ∃ t, Steps.Reaches (rpcStep e) Rpc.Moves s t ∧ Rpc.CarriedOut e (.new admins app) t ∧
      t.listener.out = (t.sent ++ t.later).flatMap (printResponse e.atoi) ∧
      ∀ m ∈ t.sent ++ t.later, hasPending m = false → t.main = .done (rescodeOf e.atoi m) := by
  have h : s.Live e := ⟨rpc_inv hok hs, rpc_serving hs, hup, hdown⟩
  -- the server is given everything
  obtain ⟨w, hw, hdelivered⟩ := h.inv.asking.up.completes e.ioHandle e.beyond h.inv.asking.plain hup hserver
  have hreach₁ := reaches_up (e := e) hw
  have h₁ := h.run hreach₁
  -- it gets through its messages
  obtain ⟨s₂, hreach₂, htoServer, hmain₂, hinput, hwaiting⟩ := Rpc.serves_all e { s with toServer := w }
  have h₂ := h₁.run hreach₂
  have hserved : s₂.served ≠ [] := by
    intro hnone
    have htaken := h₂.serving.served h₂.valid.2
    have hhandled : (delivered s₂.toServer.events).length ≤ s₂.handled := Nat.sub_eq_zero_iff_le.1 hwaiting
    rw [List.take_of_length_le hhandled, htoServer, hdelivered, hnone] at htaken
    have hmem : e.request ∈ s.toServer.messages.filter isRequest := List.mem_filter.2 ⟨hasked, rfl⟩
    rw [htaken] at hmem
    cases hmem
  -- the client is given everything
  have hclient₂ : s₂.toClient.Fits .doWork := by
    rw [Wire.Fits, hinput]
    exact hclient
  obtain ⟨w', hw', hdelivered'⟩ := h₂.inv.answering.down.completes e.ioHandle e.beyond h₂.inv.answering.plain h₂.down hclient₂
  have hreach₃ := reaches_down (e := e) hw'
  have h₃ := h₂.run hreach₃
  -- and gets through its own
  obtain ⟨s₄, hreach₄, htoClient, hmain₄, hserved₄, hheard⟩ := h₃.hears_all
  have h₄ := h₃.run hreach₄
  have hall : s₄.heardMessages.filter isAnswer = s₄.sent ++ s₄.later := by
    rw [← h₄.inv.answering.answers, Rpc.heardMessages, hheard, htoClient, List.take_length, hdelivered', (Wire.moves_keep hw').1]
  obtain ⟨t, hreach₅, hserved₅, hout, hdone⟩ := h₄.returns (hmain₄.trans (hmain₂.trans hmain)) hall
  have hreach := (((hreach₁.trans hreach₂).trans hreach₃).trans hreach₄).trans hreach₅
  refine ⟨t, hreach, ?_, hout, hdone⟩
  refine (rpc_carriedOut hok (hs.trans (hreach.weaken fun _ _ ha => ha.keeps))).resolve_left fun hnone => ?_
  exact hserved (hserved₄.symm.trans (hserved₅.symm.trans hnone))

/-- The client has queued its logon and its request, and nothing was sent yet. -/
theorem rpc_completes_sample : ∃ s t, Steps.runIf (rpcStep sampleRequest) RpcKeeps (.new sampleCommands 0) [.main 8, .main 16] = some s ∧
    s.served.length = 0 ∧ Steps.Reaches (rpcStep sampleRequest) Rpc.Moves s t ∧
    Rpc.CarriedOut sampleRequest (.new sampleCommands 0) t := by
  have hrun : (Steps.runIf (rpcStep sampleRequest) RpcKeeps (.new sampleCommands 0) [.main 8, .main 16]).map
      (fun s => ((s.served.length, s.main, s.toServer.messages), (s.toServer.ioClosed, s.toClient.ioClosed),
        decide (s.toServer.Fits .doWork), decide (s.toClient.Fits .doWork))) =
      some ((0, .wait, [logonMessage (ascii "s") (ascii "u"), sampleRequest.request]), (false, false), true, true) := by
    decide +kernel
  obtain ⟨s, hs, hfacts⟩ := Option.map_eq_some_iff.1 hrun
  simp only [Prod.mk.injEq] at hfacts
  obtain ⟨⟨hserved, hmain, hmessages⟩, ⟨hup, hdown⟩, hserver, hclient⟩ := hfacts
  obtain ⟨t, ht, hdone, -⟩ := rpc_completes sampleCommands_ok (Steps.reaches_of_runIf _ hs) hmain
    (by rw [hmessages]; simp) hup hdown (of_decide_eq_true hserver) (of_decide_eq_true hclient)
  exact ⟨s, t, hs, hserved, ht, hdone⟩

end Exio
