import Mathlib.Data.List.Infix
import Exio.AdminRpc
/-!
# AdminExit — what the client returns

Over every interleaving of the two processes: where the request is (`Rpc.Asking`), where its answers are (`Rpc.Answering`), and
what the client has made of those it was given (`Rpc.Hearing`).  Each is kept by every step of every thread, and together they
say what the main thread returns with (`rpc_exit`).
-/
namespace Exio

open Sam

section

variable {σ τ : Type}

/-! ## One step -/

/-- **What a step can do.** -/
inductive Rpc.Goes (e : RpcSetup σ τ) (s : Rpc σ τ) : RpcAct σ τ → Rpc σ τ → Prop
  | logon {addr : Nat} {w : Wire} (hpc : s.main = .logon)
      (hw : e.wire s.toServer (.enqueueToSend addr (logonMessage e.serviceid e.user)) = some w) :
      Goes e s (.main addr) { s with main := .request, toServer := w }
  | request {addr : Nat} {w : Wire} (hpc : s.main = .request) (hw : e.wire s.toServer (.enqueueToSend addr e.request) = some w) :
      Goes e s (.main addr)
        { s with main := if s.toServer.enqueueFails addr e.request then .failed else .wait, toServer := w }
  | done {addr : Nat} (hpc : s.main = .wait) (hopen : s.listener.sessionOpen = false) :
      Goes e s (.main addr) { s with main := .done s.listener.retval }
  | hear {m : TxMessage} (hm : (delivered s.toClient.events)[s.heard]? = some m) :
      Goes e s .hear { s with
        heard    := s.heard + 1
        listener := if s.toServer.sessionValid = false then s.listener else s.listener.sessionMsgReceived e.atoi m }
  | clientClosed {w : Wire} (hcb : s.toClient.input.cb = false) (hheard : s.heard = (delivered s.toClient.events).length)
      (hvalid : s.toServer.sessionValid = true) (hw : e.wire s.toServer .processClose = some w) :
      Goes e s .clientClosed { s with toServer := w, listener := s.listener.sessionClosed }
  | skip {addr : Nat} {m : TxMessage} (hpc : s.serve = .next) (hm : (delivered s.toServer.events)[s.handled]? = some m)
      (hno : s.toClient.sessionValid = true → isRequest m = false) :
      Goes e s (.serve addr) { s with handled := s.handled + 1 }
  | welcome {addr : Nat} {m : TxMessage} (hpc : s.serve = .next) (hm : (delivered s.toServer.events)[s.handled]? = some m)
      (hlogon : m.type = Id.msgLogon) :
      Goes e s (.serve addr) { s with
        handled := s.handled + 1
        peer    := s.peer.logon m
        serve   := .describe (serialiseAdmins s.admins) }
  | answer {addr : Nat} {m : TxMessage} (hpc : s.serve = .next) (hm : (delivered s.toServer.events)[s.handled]? = some m)
      (hreq : m.type = Id.msgRequest) {r : σ × AdminReply} (hr : answerRequest e.atoi e.invoke s.admins s.app e.sid m = r)
      {v : Served σ τ} (hv : v = ⟨m, s.admins, s.app, r.2⟩) :
      Goes e s (.serve addr) { s with
        handled := s.handled + 1
        app     := r.1
        served  := s.served ++ [v]
        serve   := if r.2.send then .reply r.2 v.reqseqno else .finish r.2.msg }
  | describe {addr : Nat} {m : TxMessage} {w : Wire} (hpc : s.serve = .describe m)
      (hw : e.wire s.toClient (.enqueueToSend addr m) = some w) :
      Goes e s (.serve addr) { s with serve := .next, toClient := w }
  | reply {addr : Nat} {r : AdminReply} {reqseqno : Bytes} {w : Wire} (hpc : s.serve = .reply r reqseqno)
      (hw : e.wire s.toClient (.enqueueToSend addr r.message) = some w) :
      Goes e s (.serve addr) { s with
        serve    := if s.toClient.enqueueFails addr r.message then .stock r.message reqseqno else .finish r.message
        toClient := w
        sent     := s.sent ++ s.toClient.taken w }
  | stock {addr : Nat} {resp : TxMessage} {reqseqno : Bytes} {w : Wire} (hpc : s.serve = .stock resp reqseqno)
      (hw : e.wire s.toClient (.enqueueToSend addr (enqueueFailed reqseqno)) = some w) :
      Goes e s (.serve addr) { s with serve := .finish resp, toClient := w, sent := s.sent ++ s.toClient.taken w }
  | close {addr : Nat} {resp : TxMessage} {w : Wire} (hpc : s.serve = .finish resp)
      (hw : e.wire s.toClient (.close addr) = some w) :
      Goes e s (.serve addr) { s with serve := .next, toClient := w }
  | stay {addr : Nat} {resp : TxMessage} (hpc : s.serve = .finish resp) : Goes e s (.serve addr) { s with serve := .next }
  | serverClosed {w : Wire} (hcb : s.toServer.input.cb = false) (hw : e.wire s.toClient .processClose = some w) :
      Goes e s .serverClosed { s with toClient := w }
  | later {addr : Nat} {m : TxMessage} {w : Wire} (hw : e.wire s.toClient (.enqueueToSend addr m) = some w) :
      Goes e s (.later addr m) { s with toClient := w, later := s.later ++ s.toClient.taken w }
  | adminAdd (ac : RegisteredAdmin τ) : Goes e s (.adminAdd ac) { s with admins := s.admins.add ac }
  | appChange (app : σ) : Goes e s (.appChange app) { s with app := app }
  | up {a : WireAct} {w : Wire} (ha : a ≠ .processClose) (hw : e.wire s.toServer a = some w) :
      Goes e s (.up a) { s with toServer := w }
  | down {a : WireAct} {w : Wire} (ha : a ≠ .processClose) (hw : e.wire s.toClient a = some w) :
      Goes e s (.down a) { s with toClient := w }

variable {e : RpcSetup σ τ} {s t : Rpc σ τ}

theorem mainStep_goes {addr : Nat} (hs : mainStep e s addr = some t) : s.Goes e (.main addr) t := by
  unfold mainStep at hs
  cases hpc : s.main with
  | logon =>
    rw [hpc] at hs
    obtain ⟨w, hw, rfl⟩ := Option.map_eq_some_iff.1 hs
    exact .logon hpc hw
  | request =>
    rw [hpc] at hs
    obtain ⟨w, hw, rfl⟩ := Option.map_eq_some_iff.1 hs
    exact .request hpc hw
  | wait =>
    rw [hpc] at hs
    obtain ⟨hopen, hs⟩ := Option.ite_none_left_eq_some.1 hs
    cases hs
    exact .done hpc (by simpa using hopen)
  | failed => rw [hpc] at hs; cases hs
  | done r => rw [hpc] at hs; cases hs

theorem serveStep_goes {addr : Nat} (hs : serveStep e s addr = some t) : s.Goes e (.serve addr) t := by
  unfold serveStep at hs
  cases hpc : s.serve with
  | next =>
    rw [hpc] at hs
    obtain ⟨m, hm, rfl⟩ := Option.map_eq_some_iff.1 hs
    unfold takeMessage
    dsimp only
    split
    · case isTrue hinvalid => exact .skip hpc hm fun hvalid => absurd (hvalid.symm.trans hinvalid) (by decide)
    · split
      · case isTrue hlogon => exact .welcome hpc hm hlogon
      · split
        · case isTrue hreq => exact .answer hpc hm hreq rfl rfl
        · case isFalse hno => exact .skip hpc hm fun _ => beq_false_of_ne hno
  | describe m =>
    rw [hpc] at hs
    obtain ⟨w, hw, rfl⟩ := Option.map_eq_some_iff.1 hs
    exact .describe hpc hw
  | reply r reqseqno =>
    rw [hpc] at hs
    obtain ⟨w, hw, rfl⟩ := Option.map_eq_some_iff.1 hs
    exact .reply hpc hw
  | stock resp reqseqno =>
    rw [hpc] at hs
    obtain ⟨w, hw, rfl⟩ := Option.map_eq_some_iff.1 hs
    exact .stock hpc hw
  | finish resp =>
    rw [hpc] at hs
    dsimp only at hs
    split at hs
    · obtain ⟨w, hw, rfl⟩ := Option.map_eq_some_iff.1 hs
      exact .close hpc hw
    · cases hs
      exact .stay hpc

theorem rpcStep_goes {a : RpcAct σ τ} (hs : rpcStep e s a = some t) : s.Goes e a t := by
  cases a with
  | main addr => exact mainStep_goes hs
  | hear =>
    obtain ⟨m, hm, rfl⟩ := Option.map_eq_some_iff.1 hs
    exact .hear hm
  | clientClosed =>
    obtain ⟨⟨hcb, hheard, hvalid⟩, hs⟩ := Option.ite_none_right_eq_some.1 hs
    obtain ⟨w, hw, rfl⟩ := Option.map_eq_some_iff.1 hs
    exact .clientClosed hcb hheard hvalid hw
  | serve addr => exact serveStep_goes hs
  | serverClosed =>
    obtain ⟨⟨hcb, -⟩, hs⟩ := Option.ite_none_right_eq_some.1 hs
    obtain ⟨w, hw, rfl⟩ := Option.map_eq_some_iff.1 hs
    exact .serverClosed hcb hw
  | later addr m =>
    obtain ⟨w, hw, rfl⟩ := Option.map_eq_some_iff.1 hs
    exact .later hw
  | adminAdd ac =>
    cases hs
    exact .adminAdd ac
  | appChange app =>
    cases hs
    exact .appChange app
  | up a =>
    cases a with
    | processClose => cases hs
    | enqueueToSend _ _ | close _ | handleOutput _ | handleInput _ | handleClose | doWork =>
      obtain ⟨w, hw, rfl⟩ := Option.map_eq_some_iff.1 hs
      exact .up (by simp) hw
  | down a =>
    cases a with
    | processClose => cases hs
    | enqueueToSend _ _ | close _ | handleOutput _ | handleInput _ | handleClose | doWork =>
      obtain ⟨w, hw, rfl⟩ := Option.map_eq_some_iff.1 hs
      exact .down (by simp) hw

/-! ## The request -/

theorem RpcSetup.plain_request (e : RpcSetup σ τ) : Plain e.request := plain_mk (by decide) (carried_request ..)

theorem plain_logonMessage (serviceid user : Bytes) : Plain (logonMessage serviceid user) :=
  plain_mk (by decide) (everywhere_putFieldQ _ _ (everywhere_putFieldQ _ _ (everywhere_putFieldQ _ _
    (everywhere_putFieldQ _ _ everywhere_carried_nil (by decide)) (by decide)) (by decide)) (by decide))

/-- The main thread has sent the request. -/
def MainPc.asked : MainPc → Bool
  | .wait | .done _ => true
  | _               => false

theorem filter_request {m : TxMessage} (hreq : m.type = Id.msgRequest) : [m].filter isRequest = [m] := by
  rw [List.filter_cons_of_pos (show isRequest m = true from beq_iff_eq.2 hreq), List.filter_nil]

/-- **Where the request is.**  The queue took it at most once, and only requests it took are served, in their order. -/
structure Rpc.Asking (e : RpcSetup σ τ) (s : Rpc σ τ) : Prop where
  up     : s.toServer.Inv
  plain  : ∀ m ∈ s.toServer.messages, Plain m
  asked  : s.toServer.messages.filter isRequest <+: [e.request]
  early  : s.main.asked = false → s.toServer.messages.filter isRequest = []
  served : (s.served.map Served.request).Sublist (((delivered s.toServer.events).take s.handled).filter isRequest)

namespace Rpc.Asking

/-- What the server has taken was asked. -/
theorem taken_prefix (h : s.Asking e) (n : Nat) :
    ((delivered s.toServer.events).take n).filter isRequest <+: s.toServer.messages.filter isRequest :=
  ((List.take_prefix ..).trans (h.up.delivers h.plain).1).filter _

theorem served_sublist (h : s.Asking e) : (s.served.map Served.request).Sublist (s.toServer.messages.filter isRequest) :=
  h.served.trans (h.taken_prefix _).sublist

/-- A step of the connection that takes no request. -/
theorem wire (h : s.Asking e) {a : WireAct} (hfits : s.toServer.Fits a) (ha : ∀ m ∈ a.enqueued, Plain m ∧ isRequest m = false)
    {w : Wire} (hw : e.wire s.toServer a = some w) {pc : MainPc} (hpc : pc.asked = false → s.main.asked = false) :
    ({ s with main := pc, toServer := w } : Rpc σ τ).Asking e := by
  have hmessages : (∀ m ∈ w.messages, Plain m) ∧ w.messages.filter isRequest = s.toServer.messages.filter isRequest := by
    rcases wireStep_messages hw with hsame | ⟨addr, m, rfl, happ⟩
    · rw [hsame]
      exact ⟨h.plain, rfl⟩
    · obtain ⟨hplain, hno⟩ := ha m rfl
      rw [happ, List.filter_append, List.filter_cons_of_neg (by simp [hno]), List.filter_nil, List.append_nil]
      exact ⟨List.forall_mem_append.2 ⟨h.plain, by simpa using hplain⟩, rfl⟩
  refine ⟨wireStep_inv h.up hfits hw, hmessages.1, hmessages.2 ▸ h.asked, fun hearly => hmessages.2 ▸ h.early (hpc hearly), ?_⟩
  exact h.served.trans ((((wireStep_keeps hw).delivered.take _).filter _).sublist)

/-- The main thread sends the request, the first that the queue takes. -/
theorem request (h : s.Asking e) (hpc : s.main = .request) {addr : Nat} {w : Wire}
    (hw : e.wire s.toServer (.enqueueToSend addr e.request) = some w) :
    ({ s with main := if s.toServer.enqueueFails addr e.request then .failed else .wait, toServer := w } : Rpc σ τ).Asking e := by
  have hnone := h.early (by rw [hpc]; rfl)
  have hserved := h.served.trans (((wireStep_keeps hw).delivered.take s.handled).filter isRequest).sublist
  have hinv : w.Inv := wireStep_inv (a := .enqueueToSend addr e.request) h.up trivial hw
  rcases wireStep_messages hw with hsame | ⟨addr', m, heq, happ⟩
  · exact ⟨hinv, hsame ▸ h.plain, hsame ▸ h.asked, fun _ => hsame ▸ hnone, hserved⟩
  · cases heq
    have hreq : isRequest e.request = true := rfl
    have hall : w.messages.filter isRequest = [e.request] := by
      rw [happ, List.filter_append, hnone, List.filter_cons_of_pos hreq, List.filter_nil, List.nil_append]
    refine ⟨hinv, ?_, hall ▸ List.prefix_refl _, ?_, hserved⟩
    · rw [happ]
      exact List.forall_mem_append.2 ⟨h.plain, by simpa using e.plain_request⟩
    · -- the queue took it, so that `enqueueToSend` has not failed
      intro hearly
      cases hfails : s.toServer.enqueueFails addr e.request with
      | false =>
        simp only [hfails] at hearly
        cases hearly
      | true =>
        have hsame := wireStep_enqueueFails hw hfails
        rw [happ] at hsame
        exact absurd hsame (by simp)

/-- The server takes a message. -/
theorem grows (h : s.Asking e) {m : TxMessage} (hm : (delivered s.toServer.events)[s.handled]? = some m) :
    (s.served.map Served.request ++ [m].filter isRequest).Sublist
      (((delivered s.toServer.events).take (s.handled + 1)).filter isRequest) := by
  rw [List.take_add_one, hm, Option.toList_some, List.filter_append]
  exact h.served.append (List.Sublist.refl _)

theorem skip (h : s.Asking e) {m : TxMessage} (hm : (delivered s.toServer.events)[s.handled]? = some m) :
    (s.served.map Served.request).Sublist (((delivered s.toServer.events).take (s.handled + 1)).filter isRequest) :=
  (List.sublist_append_left ..).trans (h.grows hm)

/-- **Only the request of the command line is taken, and once**, since there is no other. -/
theorem first (h : s.Asking e) {m : TxMessage} (hm : (delivered s.toServer.events)[s.handled]? = some m)
    (hreq : m.type = Id.msgRequest) : s.served = [] ∧ m = e.request := by
  have hsub := (h.grows hm).trans ((h.taken_prefix _).sublist.trans h.asked.sublist)
  rw [filter_request hreq] at hsub
  refine ⟨?_, List.mem_singleton.1 (hsub.subset (List.mem_append_right _ (List.mem_singleton_self m)))⟩
  have hlen := hsub.length_le
  rw [List.length_append, List.length_map, List.length_singleton, List.length_singleton] at hlen
  exact List.length_eq_zero_iff.1 (by omega)

end Rpc.Asking

theorem Rpc.Asking.step (h : s.Asking e) {a : RpcAct σ τ} (ha : RpcKeeps s a) (hs : s.Goes e a t) : t.Asking e := by
  cases hs with
  | logon hpc hw =>
    refine h.wire (a := .enqueueToSend _ _) trivial ?_ hw (fun _ => by rw [hpc]; rfl)
    rintro m ⟨⟩
    exact ⟨plain_logonMessage .., rfl⟩
  | request hpc hw => exact h.request hpc hw
  | done hpc hopen => exact ⟨h.up, h.plain, h.asked, fun hearly => Bool.noConfusion hearly, h.served⟩
  | clientClosed _ _ _ hw =>
    have hclosed := h.wire (a := .processClose) trivial (fun _ hm => by cases hm) hw id
    exact ⟨hclosed.up, hclosed.plain, hclosed.asked, hclosed.early, hclosed.served⟩
  | skip _ hm | welcome _ hm => exact ⟨h.up, h.plain, h.asked, h.early, h.skip hm⟩
  | @answer addr m hpc hm hreq r hr v hv =>
    refine ⟨h.up, h.plain, h.asked, h.early, ?_⟩
    have hgrows := h.grows hm
    rw [filter_request hreq] at hgrows
    rw [List.map_append, hv]
    exact hgrows
  | up _ hw => exact h.wire ha.1 ha.2 hw id
  | hear | describe | reply | stock | close | stay | serverClosed | later | adminAdd | appChange | down =>
    exact ⟨h.up, h.plain, h.asked, h.early, h.served⟩

/-! ## The answers -/

/-- A queue takes a message or leaves it. -/
theorem Wire.taken_cases {w w' : Wire} {addr : Nat} {m : TxMessage} (hw : e.wire w (.enqueueToSend addr m) = some w') :
    (w'.messages = w.messages ∧ w.taken w' = []) ∨ (w'.messages = w.messages ++ [m] ∧ w.taken w' = [m]) := by
  rcases wireStep_messages hw with hsame | ⟨addr', m', heq, happ⟩
  · exact .inl ⟨hsame, by rw [Wire.taken, hsame, List.drop_length]⟩
  · cases heq
    exact .inr ⟨happ, by rw [Wire.taken, happ, List.drop_left]⟩

theorem Wire.taken_of_fails {w w' : Wire} {addr : Nat} {m : TxMessage} (hw : e.wire w (.enqueueToSend addr m) = some w')
    (hfails : w.enqueueFails addr m = true) : w.taken w' = [] := by
  rw [Wire.taken, wireStep_enqueueFails hw hfails, List.drop_length]

/-- What the server's worker has in hand. -/
def ServePc.InHand (served : List (Served σ τ)) (sent later : List TxMessage) : ServePc → Prop
  | .next | .finish _ => True
  | .describe m       => Plain m ∧ isAnswer m = false
  | .reply r reqseqno => sent = [] ∧ later = [] ∧ ∃ v, served = [v] ∧ r = v.reply ∧ reqseqno = v.reqseqno
  | .stock _ reqseqno => sent = [] ∧ later = [] ∧ ∃ v, served = [v] ∧ reqseqno = v.reqseqno

theorem ServePc.InHand.answered {served : List (Served σ τ)} {sent later later' : List TxMessage} :
    ∀ {pc : ServePc}, pc.InHand served sent later → pc.answered = true → pc.InHand served sent later'
  | .next, h, _ | .finish _, h, _ | .describe _, h, _ => h

/-- **Where the answers are.**  The queue took the response or the stock error, or neither, and behind it what the application
sent later; all but the last of them are to be followed by others. -/
structure Rpc.Answering (e : RpcSetup σ τ) (s : Rpc σ τ) : Prop where
  down      : s.toClient.Inv
  plain     : ∀ m ∈ s.toClient.messages, Plain m
  admins    : s.admins.Ok
  replies   : ∀ v ∈ s.served, v.reply = (answerRequest e.atoi e.invoke v.admins v.app e.sid v.request).2
  inHand    : s.serve.InHand s.served s.sent s.later
  answers   : s.toClient.messages.filter isAnswer = s.sent ++ s.later
  responses : ∀ m ∈ s.sent ++ s.later, m.type = Id.msgResponse
  pending   : ∀ m ∈ (s.sent ++ s.later).dropLast, hasPending m = true
  unserved  : s.served = [] → s.sent = [] ∧ s.later = []
  sent      : s.sent = [] ∨ ∃ v, s.served = [v] ∧ (s.sent = [v.reply.message] ∨ s.sent = [enqueueFailed v.reqseqno])

namespace Rpc.Answering

/-- The response that is to be sent. -/
theorem isResponse (h : s.Answering e) {v : Served σ τ} (hv : s.served = [v]) : IsResponse v.reply.message := by
  rw [h.replies v (by rw [hv]; exact List.mem_singleton.2 rfl)]
  exact AdminReply.isResponse_message (isResponse_answerRequest e.responds ..)

/-- A step of the connection that takes no answer. -/
theorem wire (h : s.Answering e) {a : WireAct} (hfits : s.toClient.Fits a) (ha : ∀ m ∈ a.enqueued, Plain m ∧ isAnswer m = false)
    {w : Wire} (hw : e.wire s.toClient a = some w) :
    w.Inv ∧ (∀ m ∈ w.messages, Plain m) ∧ w.messages.filter isAnswer = s.sent ++ s.later := by
  refine ⟨wireStep_inv h.down hfits hw, ?_⟩
  rcases wireStep_messages hw with hsame | ⟨addr, m, rfl, happ⟩
  · rw [hsame]
    exact ⟨h.plain, h.answers⟩
  · obtain ⟨hplain, hno⟩ := ha m rfl
    rw [happ, List.filter_append, List.filter_cons_of_neg (by simp [hno]), List.filter_nil, List.append_nil]
    exact ⟨List.forall_mem_append.2 ⟨h.plain, by simpa using hplain⟩, h.answers⟩

/-- **A response that is sent.** -/
theorem respond (h : s.Answering e) {m : TxMessage} (hm : IsResponse m) {addr : Nat} {w : Wire}
    (hw : e.wire s.toClient (.enqueueToSend addr m) = some w) :
    w.Inv ∧ (∀ m ∈ w.messages, Plain m) ∧ w.messages.filter isAnswer = s.sent ++ s.later ++ s.toClient.taken w ∧
      ∀ m ∈ s.sent ++ s.later ++ s.toClient.taken w, m.type = Id.msgResponse := by
  refine ⟨wireStep_inv (a := .enqueueToSend addr m) h.down trivial hw, ?_⟩
  rcases Wire.taken_cases hw with ⟨hsame, htaken⟩ | ⟨happ, htaken⟩
  · rw [hsame, htaken, List.append_nil]
    exact ⟨h.plain, h.answers, h.responses⟩
  · have hanswer : isAnswer m = true := by
      rw [isAnswer, hm.1]
      rfl
    rw [happ, htaken, List.filter_append, h.answers, List.filter_cons_of_pos hanswer, List.filter_nil]
    exact ⟨List.forall_mem_append.2 ⟨h.plain, by simpa using hm.2⟩, rfl,
      List.forall_mem_append.2 ⟨h.responses, by simpa using hm.1⟩⟩

/-- **The server's own answer**: the response, or the stock error if that failed. -/
theorem reply (h : s.Answering e) (hsent : s.sent = []) (hlater : s.later = []) {v : Served σ τ} (hv : s.served = [v])
    {m : TxMessage} (hm : IsResponse m) (hkind : m = v.reply.message ∨ m = enqueueFailed v.reqseqno) {addr : Nat} {w : Wire}
    (hw : e.wire s.toClient (.enqueueToSend addr m) = some w) {pc : ServePc}
    (hpc : pc.InHand s.served (s.sent ++ s.toClient.taken w) s.later) :
    ({ s with serve := pc, toClient := w, sent := s.sent ++ s.toClient.taken w } : Rpc σ τ).Answering e := by
  obtain ⟨hinv, hplain, hanswers, hresponses⟩ := h.respond hm hw
  have hall : s.sent ++ s.later ++ s.toClient.taken w = s.sent ++ s.toClient.taken w ++ s.later := by
    rw [hsent, hlater, List.append_nil, List.append_nil]
  refine ⟨hinv, hplain, h.admins, h.replies, hpc, hall ▸ hanswers, hall ▸ hresponses, ?_, ?_, ?_⟩
  · -- at most one answer was taken so far
    rcases Wire.taken_cases hw with ⟨-, htaken⟩ | ⟨-, htaken⟩
    · simp [hsent, hlater, htaken]
    · simp [hsent, hlater, htaken]
  · intro hnone
    rw [show s.served = [] from hnone] at hv
    cases hv
  · rcases Wire.taken_cases hw with ⟨-, htaken⟩ | ⟨-, htaken⟩
    · exact .inl (by simp [hsent, htaken])
    · refine .inr ⟨v, hv, ?_⟩
      rcases hkind with rfl | rfl
      · exact .inl (by simp [hsent, htaken])
      · exact .inr (by simp [hsent, htaken])

end Rpc.Answering

theorem Rpc.Answering.step (h : s.Answering e) {a : RpcAct σ τ} (ha : RpcKeeps s a)
    (hfirst : ∀ {m : TxMessage}, (delivered s.toServer.events)[s.handled]? = some m → m.type = Id.msgRequest → s.served = [])
    (hs : s.Goes e a t) : t.Answering e := by
  have hhand := h.inHand
  cases hs with
  | welcome =>
    exact ⟨h.down, h.plain, h.admins, h.replies, ⟨plain_serialiseAdmins h.admins, rfl⟩, h.answers, h.responses, h.pending,
      h.unserved, h.sent⟩
  | @answer addr m hpc hm hreq r hr v hv =>
    have hnone := hfirst hm hreq
    obtain ⟨hsent, hlater⟩ := h.unserved hnone
    refine ⟨h.down, h.plain, h.admins, ?_, ?_, h.answers, h.responses, h.pending, fun hnil => ?_, .inl hsent⟩
    · intro v' hv'
      rw [show s.served ++ [v] = [v] by rw [hnone]; rfl, List.mem_singleton] at hv'
      rw [hv', hv, ← hr]
    · dsimp only
      split
      · exact ⟨hsent, hlater, v, by rw [hnone]; rfl, by rw [hv], rfl⟩
      · trivial
    · exact absurd hnil (by simp)
  | describe hpc hw =>
    rw [hpc] at hhand
    obtain ⟨hinv, hplain, hanswers⟩ := h.wire (a := .enqueueToSend _ _) trivial (by rintro m ⟨⟩; exact hhand) hw
    exact ⟨hinv, hplain, h.admins, h.replies, trivial, hanswers, h.responses, h.pending, h.unserved, h.sent⟩
  | reply hpc hw =>
    rw [hpc] at hhand
    obtain ⟨hsent, hlater, v, hv, rfl, rfl⟩ := hhand
    refine h.reply hsent hlater hv (h.isResponse hv) (.inl rfl) hw ?_
    split
    · case isTrue hfails =>
      exact ⟨by rw [hsent, Wire.taken_of_fails hw hfails]; rfl, hlater, v, hv, rfl⟩
    · trivial
  | stock hpc hw =>
    rw [hpc] at hhand
    obtain ⟨hsent, hlater, v, hv, rfl⟩ := hhand
    exact h.reply hsent hlater hv (isResponse_errorResponse ..) (.inr rfl) hw trivial
  | close hpc hw =>
    obtain ⟨hinv, hplain, hanswers⟩ := h.wire (a := .close _) trivial (fun _ hm => by cases hm) hw
    exact ⟨hinv, hplain, h.admins, h.replies, trivial, hanswers, h.responses, h.pending, h.unserved, h.sent⟩
  | stay hpc =>
    exact ⟨h.down, h.plain, h.admins, h.replies, trivial, h.answers, h.responses, h.pending, h.unserved, h.sent⟩
  | serverClosed _ hw =>
    obtain ⟨hinv, hplain, hanswers⟩ := h.wire (a := .processClose) trivial (fun _ hm => by cases hm) hw
    exact ⟨hinv, hplain, h.admins, h.replies, h.inHand, hanswers, h.responses, h.pending, h.unserved, h.sent⟩
  | @later addr m w hw =>
    obtain ⟨hplain, htype, hserved, hanswered, hpending⟩ := ha
    obtain ⟨hinv, hplain, hanswers, hresponses⟩ := h.respond ⟨htype, hplain⟩ hw
    rw [List.append_assoc] at hanswers hresponses
    refine ⟨hinv, hplain, h.admins, h.replies, ?_, hanswers, hresponses, ?_, fun hnone => absurd hnone hserved, h.sent⟩
    · exact h.inHand.answered hanswered
    · rcases Wire.taken_cases hw with ⟨-, htaken⟩ | ⟨-, htaken⟩
      · rw [htaken, List.append_nil]
        exact h.pending
      · rw [htaken, ← List.append_assoc, List.dropLast_concat]
        exact hpending
  | down _ hw =>
    obtain ⟨hinv, hplain, hanswers⟩ := h.wire ha.1 ha.2 hw
    exact ⟨hinv, hplain, h.admins, h.replies, h.inHand, hanswers, h.responses, h.pending, h.unserved, h.sent⟩
  | adminAdd ac =>
    exact ⟨h.down, h.plain, h.admins.add ha, h.replies, h.inHand, h.answers, h.responses, h.pending, h.unserved, h.sent⟩
  | logon | request | done | hear | clientClosed | skip | appChange | up =>
    exact ⟨h.down, h.plain, h.admins, h.replies, h.inHand, h.answers, h.responses, h.pending, h.unserved, h.sent⟩

/-! ## The listener -/

/-- The listener behind messages. -/
def listened (atoi : Bytes → CInt) (ms : List TxMessage) : AdminListener := ms.foldl (AdminListener.sessionMsgReceived atoi) .new

section

variable {atoi : Bytes → CInt}

theorem listened_concat (ms : List TxMessage) (m : TxMessage) :
    listened atoi (ms ++ [m]) = (listened atoi ms).sessionMsgReceived atoi m := by
  rw [listened, List.foldl_append]
  rfl

/-- Only answers matter. -/
theorem AdminListener.sessionMsgReceived_of_not_answer (l : AdminListener) {m : TxMessage} (hm : isAnswer m = false) :
    l.sessionMsgReceived atoi m = l := by
  obtain ⟨hbye, hresponse⟩ := Bool.or_eq_false_iff.1 hm
  rw [AdminListener.sessionMsgReceived, if_neg (beq_eq_false_iff_ne.1 hbye), if_neg (beq_eq_false_iff_ne.1 hresponse)]

theorem listened_filter (ms : List TxMessage) : listened atoi (ms.filter isAnswer) = listened atoi ms := by
  induction ms using List.reverseRecOn with
  | nil => rfl
  | append_singleton ms m ih =>
    rw [List.filter_append, listened_concat]
    cases hm : isAnswer m with
    | false =>
      rw [List.filter_cons_of_neg (by simp [hm]), List.filter_nil, List.append_nil, ih,
        AdminListener.sessionMsgReceived_of_not_answer _ hm]
    | true => rw [List.filter_cons_of_pos hm, List.filter_nil, listened_concat, ih]

theorem AdminListener.sessionMsgReceived_response (l : AdminListener) {m : TxMessage} (hm : m.type = Id.msgResponse) :
    l.sessionMsgReceived atoi m = l.handleReponse atoi m := by
  rw [AdminListener.sessionMsgReceived, hm, if_neg (by decide), if_pos rfl]

/-- **Responses that are to be followed by others are printed**, and the client goes on waiting. -/
theorem listened_pending (ms : List TxMessage) (htype : ∀ m ∈ ms, m.type = Id.msgResponse) (hpending : ∀ m ∈ ms, hasPending m = true) :
    listened atoi ms = ⟨true, 0, ms.flatMap (printResponse atoi)⟩ := by
  induction ms using List.reverseRecOn with
  | nil => rfl
  | append_singleton ms m ih =>
    obtain ⟨htypes, htype⟩ := List.forall_mem_append.1 htype
    obtain ⟨hpendings, hpending⟩ := List.forall_mem_append.1 hpending
    rw [listened_concat, ih htypes hpendings, AdminListener.sessionMsgReceived_response _ (htype m (List.mem_singleton.2 rfl)),
      AdminListener.handleReponse, if_pos (hpending m (List.mem_singleton.2 rfl))]
    simp

/-- **One that is not ends the wait, with its code.** -/
theorem listened_final {init : List TxMessage} {m : TxMessage} (htype : ∀ x ∈ init ++ [m], x.type = Id.msgResponse)
    (hinit : ∀ x ∈ init, hasPending x = true) (hm : hasPending m = false) :
    listened atoi (init ++ [m]) = ⟨false, rescodeOf atoi m, (init ++ [m]).flatMap (printResponse atoi)⟩ := by
  obtain ⟨htypes, htype⟩ := List.forall_mem_append.1 htype
  rw [listened_concat, listened_pending init htypes hinit,
    AdminListener.sessionMsgReceived_response _ (htype m (List.mem_singleton.2 rfl)), AdminListener.handleReponse,
    if_neg (by simp [hm])]
  simp [AdminListener.triggerClose]

/-- **The two ways to hear answers of which all but the last are to be followed by others.** -/
theorem listened_cases {ms heard : List TxMessage} (htype : ∀ m ∈ ms, m.type = Id.msgResponse)
    (hpending : ∀ m ∈ ms.dropLast, hasPending m = true) (hheard : heard <+: ms) :
    ((∀ m ∈ heard, hasPending m = true) ∧ listened atoi heard = ⟨true, 0, heard.flatMap (printResponse atoi)⟩) ∨
    ∃ init m, heard = init ++ [m] ∧ ms = heard ∧ (∀ x ∈ init, hasPending x = true) ∧ hasPending m = false ∧
      listened atoi heard = ⟨false, rescodeOf atoi m, heard.flatMap (printResponse atoi)⟩ := by
  have hheardType : ∀ m ∈ heard, m.type = Id.msgResponse := fun m hm => htype m (hheard.subset hm)
  by_cases hall : ∀ m ∈ heard, hasPending m = true
  · exact .inl ⟨hall, listened_pending heard hheardType hall⟩
  · -- an answer that is not to be followed by others can only be the last that was sent
    obtain ⟨rest, rfl⟩ := hheard
    have hrest : rest = [] := by
      by_contra hne
      rw [List.dropLast_append_of_ne_nil hne] at hpending
      exact hall (List.forall_mem_append.1 hpending).1
    rw [hrest, List.append_nil] at hpending ⊢
    rcases List.eq_nil_or_concat' heard with rfl | ⟨init, m, rfl⟩
    · exact absurd (fun m hm => by cases hm) hall
    · rw [List.dropLast_concat] at hpending
      have hm : hasPending m = false := by
        cases hm : hasPending m with
        | false => rfl
        | true => exact absurd (List.forall_mem_append.2 ⟨hpending, by simpa using hm⟩) hall
      exact .inr ⟨init, m, rfl, rfl, hpending, hm, listened_final hheardType hpending hm⟩

end

/-- The messages that the client's worker has taken. -/
def Rpc.heardMessages (s : Rpc σ τ) : List TxMessage := (delivered s.toClient.events).take s.heard

/-- **What the client has made of its messages.**  When the connection has ended there are no more of them. -/
structure Rpc.Hearing (e : RpcSetup σ τ) (s : Rpc σ τ) : Prop where
  count    : s.heard ≤ (delivered s.toClient.events).length
  opened   : s.toServer.sessionValid = true → s.listener = listened e.atoi s.heardMessages
  closed   : s.toServer.sessionValid = false → s.listener = (listened e.atoi s.heardMessages).sessionClosed ∧
    s.toClient.input.cb = false ∧ s.heard = (delivered s.toClient.events).length
  done     : ∀ r, s.main = .done r → s.listener.sessionOpen = false ∧ s.listener.retval = r

namespace Rpc.Hearing

/-- A step of the connection to the server that leaves the session valid. -/
theorem up (h : s.Hearing e) {a : WireAct} (ha : a ≠ .processClose) {w : Wire} (hw : e.wire s.toServer a = some w) {pc : MainPc}
    (hpc : ∀ r, pc = .done r → s.main = .done r) : ({ s with main := pc, toServer := w } : Rpc σ τ).Hearing e := by
  have hvalid := (wireStep_keeps hw).valid ha
  exact ⟨h.count, fun hv => h.opened (hvalid ▸ hv), fun hv => h.closed (hvalid ▸ hv), fun r hr => h.done r (hpc r hr)⟩

/-- A step of the connection to the client. -/
theorem down (h : s.Hearing e) {a : WireAct} {w : Wire} (hw : e.wire s.toClient a = some w) :
    ({ s with toClient := w } : Rpc σ τ).Hearing e := by
  have hkeeps := wireStep_keeps hw
  have hsame : (delivered w.events).take s.heard = s.heardMessages := by
    obtain ⟨rest, hrest⟩ := hkeeps.delivered
    rw [← hrest, List.take_append_of_le_length h.count]
    rfl
  refine ⟨h.count.trans hkeeps.delivered.length_le, fun hv => ?_, fun hv => ?_, h.done⟩
  · exact (h.opened hv).trans (congrArg _ hsame.symm)
  · obtain ⟨hlistener, hcb, hheard⟩ := h.closed hv
    obtain ⟨hcb', hevents⟩ := hkeeps.dead hcb
    exact ⟨hlistener.trans (congrArg (fun ms => (listened e.atoi ms).sessionClosed) hsame.symm), hcb', hevents ▸ hheard⟩

/-- What was heard are answers in their order. -/
theorem heard_prefix (h : s.Answering e) : s.heardMessages.filter isAnswer <+: s.sent ++ s.later := by
  rw [← h.answers]
  exact ((List.take_prefix ..).trans (h.down.delivers h.plain).1).filter _

/-- **The worker takes a message.**  If the main thread has returned, it is none that the listener acts on. -/
theorem hear (h : s.Hearing e) (hanswering : s.Answering e) {m : TxMessage}
    (hm : (delivered s.toClient.events)[s.heard]? = some m) :
    ({ s with
      heard    := s.heard + 1
      listener := if s.toServer.sessionValid = false then s.listener else s.listener.sessionMsgReceived e.atoi m } :
      Rpc σ τ).Hearing e := by
  have hlt : s.heard < (delivered s.toClient.events).length := (List.getElem?_eq_some_iff.1 hm).1
  have hvalid : s.toServer.sessionValid = true := by
    cases hv : s.toServer.sessionValid with
    | true => rfl
    | false => exact absurd (h.closed hv).2.2 (by omega)
  have htaken : (delivered s.toClient.events).take (s.heard + 1) = s.heardMessages ++ [m] := by
    rw [List.take_add_one, hm]
    rfl
  rw [if_neg (by simp [hvalid])]
  refine ⟨hlt, fun _ => ?_, fun hv => absurd (hvalid.symm.trans hv) (by decide), fun r hr => ?_⟩
  · exact (h.opened hvalid ▸ (listened_concat ..).symm).trans (congrArg _ htaken.symm)
  · obtain ⟨hopen, hretval⟩ := h.done r hr
    suffices hno : isAnswer m = false by
      rw [AdminListener.sessionMsgReceived_of_not_answer _ hno]
      exact ⟨hopen, hretval⟩
    have hprefix := heard_prefix hanswering
    rcases listened_cases hanswering.responses hanswering.pending hprefix with ⟨-, hlistened⟩ | ⟨init, x, -, hall, -⟩
    · rw [h.opened hvalid, ← listened_filter, hlistened] at hopen
      cases hopen
    · -- all answers were heard, and so the next message is none
      have hnext : (s.heardMessages ++ [m]).filter isAnswer <+: s.sent ++ s.later := by
        rw [← htaken, ← hanswering.answers]
        exact ((List.take_prefix ..).trans (hanswering.down.delivers hanswering.plain).1).filter _
      rw [hall, List.filter_append] at hnext
      cases hm : isAnswer m with
      | false => rfl
      | true =>
        rw [List.filter_cons_of_pos hm, List.filter_nil] at hnext
        exact absurd hnext.length_le (by simp)

end Rpc.Hearing

theorem Rpc.Hearing.step (h : s.Hearing e) (hanswering : s.Answering e) {a : RpcAct σ τ} (hs : s.Goes e a t) : t.Hearing e := by
  cases hs with
  | logon hpc hw => exact h.up (by simp) hw (fun r hr => by cases hr)
  | request hpc hw => exact h.up (by simp) hw (fun r hr => by split at hr <;> cases hr)
  | done hpc hopen => exact ⟨h.count, h.opened, h.closed, fun r hr => by cases hr; exact ⟨hopen, rfl⟩⟩
  | hear hm => exact h.hear hanswering hm
  | clientClosed hcb hheard hvalid hw =>
    cases hw
    refine ⟨h.count, fun hv => Bool.noConfusion hv, fun _ => ⟨?_, hcb, hheard⟩, fun r hr => ⟨rfl, (h.done r hr).2⟩⟩
    exact congrArg AdminListener.sessionClosed (h.opened hvalid)
  | describe hpc hw | reply hpc hw | stock hpc hw | close hpc hw | serverClosed _ hw | later hw | down _ hw =>
    have hdown := h.down hw
    exact ⟨hdown.count, hdown.opened, hdown.closed, hdown.done⟩
  | up ha hw => exact h.up ha hw fun _ hr => hr
  | skip | welcome | answer | stay | adminAdd | appChange => exact ⟨h.count, h.opened, h.closed, h.done⟩

/-! ## What the server answers -/

/-- **What the request of the command line does**: the state it leaves and the reply to it, with the commands and the state that
it finds. -/
def RpcSetup.carryOut (e : RpcSetup σ τ) (admins : Admins τ) (app : σ) : σ × AdminReply :=
  match admins[e.options.cmd]? with
  | none    => (app, adminNotFound.response (ascii "0"))
  | some ac =>
    let r := e.invoke admins ac.target app ⟨e.request, e.sid, e.options.cmdargs, ascii "0"⟩
    (r.1, r.2.response (ascii "0"))

theorem RpcSetup.reqseqno_request (e : RpcSetup σ τ) : findFieldQ Id.qnHeadReqseqno e.request.root = some (ascii "0") := by
  rw [Id.qnHeadReqseqno, findFieldQ, RpcSetup.request, findChild_head_request, Option.bind_some, findFieldQ, fillHead,
    findField_putField, if_pos rfl]

/-- **The server finds the command and the arguments that were given.** -/
theorem RpcSetup.answerRequest_request (e : RpcSetup σ τ) (admins : Admins τ) (app : σ) :
    answerRequest e.atoi e.invoke admins app e.sid e.request = e.carryOut admins app := by
  have hname : commandName e.request = some e.options.cmd := commandName_request _ _ _ e.command
  have hargs : initArgs e.atoi e.request = .ok e.options.cmdargs := initArgs_request _ _ _ e.reads e.args
  rw [answerRequest, RpcSetup.carryOut, hname, hargs, e.reqseqno_request, Option.bind_some]
  cases admins[e.options.cmd]? with
  | none => rfl
  | some ac => rfl

/-! ## Every run -/

structure Rpc.Inv (e : RpcSetup σ τ) (s : Rpc σ τ) : Prop where
  asking    : s.Asking e
  answering : s.Answering e
  hearing   : s.Hearing e

theorem Rpc.new_inv {admins : Admins τ} (hok : admins.Ok) (app : σ) : (Rpc.new admins app).Inv e where
  asking := ⟨Wire.new_inv, fun _ hm => (List.not_mem_nil hm).elim, List.nil_prefix, fun _ => rfl, List.Sublist.refl _⟩
  answering := ⟨Wire.new_inv, fun _ hm => (List.not_mem_nil hm).elim, hok, fun _ hv => (List.not_mem_nil hv).elim, trivial, rfl,
    fun _ hm => (List.not_mem_nil hm).elim, fun _ hm => (List.not_mem_nil hm).elim, fun _ => ⟨rfl, rfl⟩, .inl rfl⟩
  hearing := ⟨Nat.le_refl _, fun _ => rfl, fun hv => Bool.noConfusion hv, fun r hr => by cases hr⟩

theorem rpcStep_inv (h : s.Inv e) {a : RpcAct σ τ} (ha : RpcKeeps s a) (hs : rpcStep e s a = some t) : t.Inv e := by
  have hgoes := rpcStep_goes hs
  exact ⟨h.asking.step ha hgoes, h.answering.step ha (fun hm hreq => (h.asking.first hm hreq).1) hgoes,
    h.hearing.step h.answering hgoes⟩

theorem rpc_inv {admins : Admins τ} (hok : admins.Ok) {app : σ} (hs : Steps.Reaches (rpcStep e) RpcKeeps (.new admins app) s) :
    s.Inv e :=
  hs.invariant (Rpc.new_inv hok app) fun h ha hs => rpcStep_inv h ha hs

/-! ### The step that carries it out -/

/-- What the server keeps of the request, if it carries it out in `s`. -/
def Rpc.record (e : RpcSetup σ τ) (s : Rpc σ τ) : Served σ τ := ⟨e.request, s.admins, s.app, (e.carryOut s.admins s.app).2⟩

/-- **Only one step touches the application's state**, but for those of the application itself: it carries out the request, and
nothing was carried out before. -/
theorem Rpc.Inv.app_cases (h : s.Inv e) {a : RpcAct σ τ} (hs : rpcStep e s a = some t) :
    (t.served = s.served ∧ (t.app = s.app ∨ a = .appChange t.app)) ∨
      (∃ addr, a = .serve addr) ∧ s.served = [] ∧ t.served = [s.record e] ∧ t.app = (e.carryOut s.admins s.app).1 := by
  cases rpcStep_goes hs with
  | @answer addr m hpc hm hreq r hr v hv =>
    obtain ⟨hnone, rfl⟩ := h.asking.first hm hreq
    obtain rfl : e.carryOut s.admins s.app = r := e.answerRequest_request .. ▸ hr
    exact .inr ⟨⟨addr, rfl⟩, hnone, by rw [hnone, hv]; rfl, rfl⟩
  | appChange app => exact .inl ⟨rfl, .inr rfl⟩
  | logon | request | done | hear | clientClosed | skip | welcome | describe | reply | stock | close | stay | serverClosed | later
  | adminAdd | up | down => exact .inl ⟨rfl, .inl rfl⟩

theorem admins_of_reaches (hs : Steps.Reaches (rpcStep e) RpcKeeps s t) {n : Bytes} {ac : RegisteredAdmin τ}
    (hn : s.admins[n]? = some ac) : t.admins[n]? = some ac := by
  refine hs.invariant (P := fun t => t.admins[n]? = some ac) hn fun {t u a} hn _ hstep => ?_
  cases rpcStep_goes hstep with
  | adminAdd ac' => exact Admins.getElem?_add hn ac'
  | logon | request | done | hear | clientClosed | skip | welcome | answer | describe | reply | stock | close | stay | serverClosed
  | later | appChange | up | down => exact hn

/-- **The request was carried out on the way from `s₀` to `s`**, by a step of the server's worker: with the commands registered
and the state of the application as they were at that step. -/
def Rpc.CarriedOut (e : RpcSetup σ τ) (s₀ s : Rpc σ τ) : Prop :=
  ∃ addr s₁ s₂, Steps.Reaches (rpcStep e) RpcKeeps s₀ s₁ ∧ rpcStep e s₁ (.serve addr) = some s₂ ∧
    Steps.Reaches (rpcStep e) RpcKeeps s₂ s ∧ s₂.app = (e.carryOut s₁.admins s₁.app).1 ∧ s.served = [s₁.record e]

theorem rpc_carriedOut {admins : Admins τ} (hok : admins.Ok) {app : σ}
    (hs : Steps.Reaches (rpcStep e) RpcKeeps (.new admins app) s) : s.served = [] ∨ Rpc.CarriedOut e (.new admins app) s := by
  induction hs with
  | refl => exact .inl rfl
  | @step t u a hreach ha hstep ih =>
    rcases (rpc_inv hok hreach).app_cases hstep with ⟨hsame, -⟩ | ⟨⟨addr, rfl⟩, -, hserved, happ⟩
    · refine ih.imp (hsame ▸ id) ?_
      rintro ⟨addr, s₁, s₂, hbefore, hserve, hafter, happ, hserved⟩
      exact ⟨addr, s₁, s₂, hbefore, hserve, hafter.step ha hstep, happ, hsame ▸ hserved⟩
    · exact .inr ⟨addr, t, u, hreach, hstep, .refl, happ, hserved⟩

end

/-- **A command is carried out at most once, and the client returns what was answered.**  In every state of every interleaving of
the two processes: the server has carried out nothing and answered nothing; or it has carried out the request in one step, with
the command and the arguments of the command line, the commands registered then (a command registered at the start is still that
one) and the state of the application then; what it has sent of its own is the response, or the stock error if the response could
not be sent, or nothing.  No other step touches the state, but those of the application itself.  If the client gave up with
`failed to send request`, nothing was carried out.  If it has returned, then with 0 because the connection has ended before a
response that is the last; or with the code of that response.  It has printed the responses in their order. -/
theorem rpc_exit {σ τ : Type} {e : RpcSetup σ τ} {admins : Admins τ} (hok : admins.Ok) {app : σ} {s : Rpc σ τ}
    (hs : Steps.Reaches (rpcStep e) RpcKeeps (.new admins app) s) :
    ((s.served = [] ∧ s.sent ++ s.later = []) ∨ Rpc.CarriedOut e (.new admins app) s ∧ ∃ v, s.served = [v] ∧
      (∀ ac, admins[e.options.cmd]? = some ac → v.admins[e.options.cmd]? = some ac) ∧
      (s.sent = [] ∨ s.sent = [v.reply.message] ∨ s.sent = [enqueueFailed (ascii "0")])) ∧
    (∀ a t, rpcStep e s a = some t → (t.served = s.served ∧ (t.app = s.app ∨ a = .appChange t.app)) ∨
      s.served = [] ∧ t.served = [s.record e] ∧ t.app = (e.carryOut s.admins s.app).1) ∧
    (s.main = .failed → s.served = []) ∧
    ∀ r, s.main = .done r →
      (∃ heard, heard <+: s.sent ++ s.later ∧ (∀ m ∈ heard, hasPending m = true) ∧ s.toServer.sessionValid = false ∧
        s.listener.out = heard.flatMap (printResponse e.atoi) ∧ r = 0) ∨
      ∃ init m, s.sent ++ s.later = init ++ [m] ∧ (∀ x ∈ init, hasPending x = true) ∧ hasPending m = false ∧
        s.listener.out = (init ++ [m]).flatMap (printResponse e.atoi) ∧ r = rescodeOf e.atoi m := by
  have h := rpc_inv hok hs
  refine ⟨?_, fun a t hstep => ?_, ?_, ?_⟩
  · rcases rpc_carriedOut hok hs with hnone | hdone
    · obtain ⟨hsent, hlater⟩ := h.answering.unserved hnone
      exact .inl ⟨hnone, by rw [hsent, hlater]; rfl⟩
    · refine .inr ⟨hdone, ?_⟩
      obtain ⟨addr, s₁, s₂, hbefore, -, -, -, hserved⟩ := hdone
      refine ⟨s₁.record e, hserved, fun ac hac => admins_of_reaches hbefore hac, ?_⟩
      rcases h.answering.sent with hnil | ⟨v, hv, hsent⟩
      · exact .inl hnil
      · obtain rfl : v = s₁.record e := by
          rw [hserved] at hv
          exact (List.singleton_inj.1 hv).symm
        have hseq : (s₁.record e).reqseqno = ascii "0" := by rw [Served.reqseqno, Rpc.record, e.reqseqno_request]; rfl
        rw [← hseq]
        exact .inr hsent
  · exact (h.app_cases hstep).imp id And.right
  · intro hfailed
    have hsub := h.asking.served_sublist
    rw [h.asking.early (by rw [hfailed]; rfl), List.sublist_nil] at hsub
    exact List.map_eq_nil_iff.1 hsub
  · intro r hr
    obtain ⟨hopen, hretval⟩ := h.hearing.done r hr
    have hprefix := Rpc.Hearing.heard_prefix h.answering
    rcases listened_cases h.answering.responses h.answering.pending hprefix with
      ⟨hpending, hlistened⟩ | ⟨init, m, hheard, hall, hinit, hm, hlistened⟩
    · rw [listened_filter] at hlistened
      refine .inl ⟨_, hprefix, hpending, ?_⟩
      cases hvalid : s.toServer.sessionValid with
      | true =>
        rw [h.hearing.opened hvalid, hlistened] at hopen
        cases hopen
      | false =>
        rw [(h.hearing.closed hvalid).1, hlistened] at hretval ⊢
        exact ⟨rfl, rfl, hretval.symm⟩
    · rw [listened_filter] at hlistened
      refine .inr ⟨init, m, hall.trans hheard, hinit, hm, ?_⟩
      rw [← hheard]
      cases hvalid : s.toServer.sessionValid with
      | true =>
        rw [h.hearing.opened hvalid, hlistened] at hretval ⊢
        exact ⟨rfl, hretval.symm⟩
      | false =>
        rw [(h.hearing.closed hvalid).1, hlistened] at hretval ⊢
        exact ⟨rfl, hretval.symm⟩

/-! ### A run -/

instance {σ τ : Type} (s : Rpc σ τ) (a : RpcAct σ τ) : Decidable (RpcKeeps s a) :=
  match a with
  | .up a => inferInstanceAs (Decidable (s.toServer.Fits a ∧ ∀ m ∈ a.enqueued, Plain m ∧ isRequest m = false))
  | .down a => inferInstanceAs (Decidable (s.toClient.Fits a ∧ ∀ m ∈ a.enqueued, Plain m ∧ isAnswer m = false))
  | .later _ m => inferInstanceAs (Decidable (Plain m ∧ m.type = Id.msgResponse ∧ s.served ≠ [] ∧ s.serve.answered = true ∧
    ∀ m ∈ s.sent ++ s.later, hasPending m = true))
  | .adminAdd ac => inferInstanceAs (Decidable (∀ a ∈ ac.attrs, PlainName a))
  | .main _ | .hear | .clientClosed | .serve _ | .serverClosed | .appChange _ => isTrue trivial

/-- A command that counts its calls and leaves its request pending. -/
def sampleInvoke (_ : Admins Unit) (_ : Unit) (calls : Nat) (request : AdminRequest) : Nat × Invoked :=
  (calls + 1, .reply ⟨true, setPending true (addRescode 0 (adminResponse request.reqseqno))⟩)

theorem sampleInvoke_responds (admins : Admins Unit) (target : Unit) (calls : Nat) (request : AdminRequest) :
    (sampleInvoke admins target calls request).2.Responds :=
  ⟨rfl, plain_mk (t := Id.msgResponse) (by decide) (everywhere_putFieldQ _ _
    (everywhere_putFieldQ _ _ (everywhere_adminResponse _) (by decide)) (by decide))⟩

/-- `admin h 1 a x`. -/
def sampleRequest : RpcSetup Nat Unit where
  atoi      := signedAtoi
  invoke    := sampleInvoke
  options   := ⟨ascii "h", ascii "1", ascii "a", [ascii "x"]⟩
  serviceid := ascii "s"
  user      := ascii "u"
  sid       := 1
  ioHandle  := true
  beyond    := 0
  reads     := signedAtoi_readsInts.readsNumerals
  command   := by decide
  args      := by decide
  responds  := sampleInvoke_responds

def sampleCommands : Admins Unit := (∅ : Admins Unit).add ⟨ascii "a", [], [], (), ∅⟩

theorem sampleCommands_ok : sampleCommands.Ok := Admins.ok_empty.add fun a ha => by simp at ha

def sendsFront (n : Nat) : List WireAct := [.handleOutput .next, .handleOutput (.send n), .handleOutput .account]

/-- The logon and the request are read at once; a heartbeat comes between the description of the commands and the response,
and the application sends a failure later. -/
def sampleRpc : List (RpcAct Nat Unit) :=
  [.main 8, .main 16] ++ (sendsFront 73 ++ sendsFront 120 ++ [WireAct.handleInput 193, .doWork]).map .up ++
    [.serve 8, .serve 8, .down (.enqueueToSend 16 ⟨ascii "heartbeat", []⟩), .serve 24, .serve 32, .serve 40,
      .later 48 (errorResponse (ascii "0") 7 (ascii "no"))] ++
    (sendsFront 119 ++ sendsFront 26 ++ sendsFront 89 ++ sendsFront 107 ++ [WireAct.handleInput 341, .doWork]).map .down ++
    [.hear, .hear, .hear, .hear, .main 8]

theorem rpc_exit_sample : ∃ s, Steps.runIf (rpcStep sampleRequest) RpcKeeps (.new sampleCommands 0) sampleRpc = some s ∧
    s.main = .done 7 ∧ s.app = 1 ∧ s.listener.out = ascii "NO FORMAT\n7 FAIL, no\n" ∧ s.served.length = 1 ∧
    Rpc.CarriedOut sampleRequest (.new sampleCommands 0) s := by
  have hrun : (Steps.runIf (rpcStep sampleRequest) RpcKeeps (.new sampleCommands 0) sampleRpc).map
      (fun s => (s.main, s.app, s.listener.out, s.served.length)) = some (.done 7, 1, ascii "NO FORMAT\n7 FAIL, no\n", 1) := by
    decide +kernel
  obtain ⟨s, hs, hfacts⟩ := Option.map_eq_some_iff.1 hrun
  simp only [Prod.mk.injEq] at hfacts
  obtain ⟨hmain, happ, hout, hserved⟩ := hfacts
  refine ⟨s, hs, hmain, happ, hout, hserved, ?_⟩
  rcases (rpc_exit sampleCommands_ok (Steps.reaches_of_runIf _ hs)).1 with ⟨hnone, -⟩ | ⟨hdone, -⟩
  · rw [hnone] at hserved
    cases hserved
  · exact hdone

end Exio
