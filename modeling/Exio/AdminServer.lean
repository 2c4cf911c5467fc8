import Exio.RemoteTables
import Exio.TableResponse
/-!
# AdminServer — the commands of a server, and how it answers

An application registers commands (`admin_add`) beside the built-in ones.  `handle_admin_request` finds the command of a request,
gives it the arguments, and makes a response of what the command does: the response it returns, or an error response for the
exception it throws.  A new session is sent the list of the commands with its logon (`handle_logon_msg`).

What a command does is the application's: `invoke` is any function of the command's target, the application's state and the
request.  `help` is modelled as it is, over the registered commands.
-/
namespace Exio

open Sam
open Decimal (decimal)
open Numbered (putAll)

namespace Id

def restext     : Bytes := ascii "restext"
def autoclose   : Bytes := ascii "autoclose"
def serviceid   : Bytes := ascii "serviceid"
def adminPrefix : Bytes := ascii "admin_"
def admincount  : Bytes := ascii "admincount"
def adminset    : Bytes := ascii "adminset"
def name        : Bytes := ascii "name"
def shorthelp   : Bytes := ascii "short"
def longhelp    : Bytes := ascii "long"
def admindescr  : Bytes := ascii "admindescr"
def msgBye      : Bytes := ascii "bye"

def qnRestext   : List Bytes := [head, restext]
def qnServiceid : List Bytes := [head, serviceid]
def qnHeadUser  : List Bytes := [head, user]
def qnAutoclose : List Bytes := [head, autoclose]

end Id

/-! ## Responses -/

/-- `AdminResponse`: a message, and whether it is to be sent. -/
structure AdminReply where
  send : Bool
  msg  : TxMessage

def hasPending (m : TxMessage) : Bool := checkFieldQ Id.qnPending Id.true_ m.root

/-- `AdminResponse::success`, which does the same as `AdminResponse::error`. -/
def successResponse (reqseqno str : Bytes) (code : Int) : TxMessage := errorResponse reqseqno code str

/-- `operator=` of `AdminResponse`, which looks for the head and the body of the message. -/
def AdminReply.assign (r : AdminReply) : AdminReply :=
  { r with msg := { r.msg with root := putChild (putChild r.msg.root Id.head) Id.body } }

/-- How the call of a command ends. -/
inductive Invoked where
  | reply (r : AdminReply)
  | adminError (code : CInt) (what : Bytes)
  | exception (what : Bytes)
  | unknown

/-- `handle_admin_request`, from how the command ended to the response. -/
def Invoked.response (reqseqno : Bytes) : Invoked → AdminReply
  | .reply r              => r.assign
  | .adminError code what => ⟨true, errorResponse reqseqno code.val what⟩
  | .exception what       => ⟨true, errorResponse reqseqno Id.errAdminNotFound what⟩
  | .unknown              => ⟨true, errorResponse reqseqno Id.errUnknown (ascii "unknown admin error")⟩

/-- What is sent for a response. -/
def AdminReply.message (r : AdminReply) : TxMessage :=
  { r.msg with root := putFieldQ Id.msgResponse Id.qnMsgtype r.msg.root }

/-- What is sent if that fails. -/
def enqueueFailed (reqseqno : Bytes) : TxMessage := errorResponse reqseqno Id.errUnknown (ascii "enqueue failed")

/-! ## The commands -/

/-- `AdminCommand`, with what its target is called by. -/
structure RegisteredAdmin (τ : Type) where
  name      : Bytes
  shorthelp : Bytes
  longhelp  : Bytes
  target    : τ
  attrs     : Fields

/-- `m_admins`. -/
abbrev Admins (τ : Type) := Std.TreeMap Bytes (RegisteredAdmin τ)

/-- `admin_add`: the first of a name stays. -/
def Admins.add {τ : Type} (admins : Admins τ) (ac : RegisteredAdmin τ) : Admins τ := admins.insertIfNew ac.name ac

/-- `AdminRequest`, as far as it is made from a message. -/
structure AdminRequest where
  msg      : TxMessage
  id       : Nat
  args     : List Bytes
  reqseqno : Bytes

/-- `throw AdminError(id::err_admin_not_found)`. -/
def adminNotFound : Invoked := .adminError ⟨Id.errAdminNotFound, by decide, by decide⟩ (Id.errorCodeStr Id.errAdminNotFound)

/-- **`handle_admin_request`**, up to the response. -/
def answerRequest {σ τ : Type} (atoi : Bytes → CInt) (invoke : Admins τ → τ → σ → AdminRequest → σ × Invoked)
    (admins : Admins τ) (app : σ) (sid : Nat) (m : TxMessage) : σ × AdminReply :=
  let reqseqno := (findFieldQ Id.qnHeadReqseqno m.root).getD []
  match (commandName m).bind fun c => admins[c]? with
  | none       => (app, adminNotFound.response reqseqno)
  | some admin =>
    match initArgs atoi m with
    | .error e => (app, (Invoked.exception e.what).response reqseqno)
    | .ok args =>
      let r := invoke admins admin.target app ⟨m, sid, args, reqseqno⟩
      (r.1, r.2.response reqseqno)

/-! ## The description of the commands -/

/-- One turn of the loop of `serialise_admins`; an attribute can go over a name or a help text. -/
def putAdmin {τ : Type} (n : Nat) (ac : RegisteredAdmin τ) (adminset : List TxItem) : List TxItem :=
  modifyChild adminset (Id.adminPrefix ++ decimal n) fun adminbox =>
    putFields (putField (putField (putField adminbox Id.name ac.name) Id.shorthelp ac.shorthelp) Id.longhelp ac.longhelp) ac.attrs

def serialiseAdmins {τ : Type} (admins : Admins τ) : TxMessage :=
  ⟨Id.admindescr, modifyChild (putFieldQ Id.admindescr Id.qnMsgtype []) Id.body fun body =>
    modifyChild body Id.adminset fun adminset =>
      putField (putAll putAdmin 0 (admins.toList.map Prod.snd) adminset) Id.admincount (decimal admins.size)⟩

/-! ## `help` -/

/-- `tolower`, in the locale a program starts with. -/
def toLower (c : UInt8) : UInt8 := if 65 ≤ c ∧ c ≤ 90 then c + 32 else c

/-- What `strcasecmp` compares of a string: up to the first NUL, in lower case. -/
def caseFolded (w : Bytes) : Bytes := (w.takeWhile (· ≠ 0)).map toLower

/-- `compare_nocase`. -/
def compareNocase (lhs rhs : Bytes) : Bool := decide (caseFolded lhs < caseFolded rhs)

/-- `admins.sort(compare_nocase)`, which keeps the order of names that are the same to it. -/
def sortNocase (names : List Bytes) : List Bytes := names.mergeSort fun a b => !compareNocase b a

def helpText {τ : Type} (ac : RegisteredAdmin τ) : Bytes :=
  ac.name ++ (if ac.shorthelp ≠ [] then ascii " - " ++ ac.shorthelp else []) ++
    if ac.longhelp ≠ [] then ascii "\n\n" ++ ac.longhelp else []

def admincmdHelp {τ : Type} (admins : Admins τ) (request : AdminRequest) : AdminReply :=
  match request.args with
  | []       =>
    ⟨true, onBody (formatreplySimplelist (sortNocase admins.keys) (some (ascii "admin")))
      (setPending false (addRescode 0 (adminResponse request.reqseqno)))⟩
  | name :: _ =>
    match admins[name]? with
    | some ac => ⟨true, successResponse request.reqseqno (helpText ac) 0⟩
    | none    => ⟨true, errorResponse request.reqseqno Id.errAdminNotFound (ascii "admin not found")⟩

/-! ## What the wire carries -/

theorem Sam.Everywhere.putChild {is : List TxItem} (h : Everywhere Carried is) {c : Bytes} (hc : PlainName c) :
    Everywhere Carried (Sam.putChild is c) :=
  modifyChild_id is c ▸ h.modifyChild hc fun _ hcs => hcs

theorem everywhere_adminResponse (reqseqno : Bytes) : Everywhere Carried (adminResponse reqseqno).root :=
  everywhere_putFieldQ reqseqno Id.qnHeadReqseqno ((everywhere_carried_nil.putChild (by decide)).putChild (by decide)) (by decide)

/-- **Every text response is carried.** -/
theorem plain_errorResponse (reqseqno : Bytes) (code : Int) (str : Bytes) : Plain (errorResponse reqseqno code str) := by
  have hhead := everywhere_putFieldQ (Decimal.signed code) Id.qnRescode (everywhere_adminResponse reqseqno) (by decide)
  have hpending := everywhere_putFieldQ Id.false_ Id.qnPending hhead (by decide)
  refine plain_mk (t := Id.msgResponse) (by decide) (hpending.modifyChild (by decide) fun body hbody => ?_)
  exact (hbody.putField (by decide) _).modifyChild (by decide) fun data hdata => hdata.putField (by decide) _

/-- A response that keeps the type it was made with. -/
def IsResponse (m : TxMessage) : Prop := m.type = Id.msgResponse ∧ Plain m

theorem isResponse_errorResponse (reqseqno : Bytes) (code : Int) (str : Bytes) : IsResponse (errorResponse reqseqno code str) :=
  ⟨rfl, plain_errorResponse reqseqno code str⟩

theorem AdminReply.isResponse_assign {r : AdminReply} (h : IsResponse r.msg) : IsResponse r.assign.msg :=
  ⟨h.1, h.2.1, h.2.2.1, (h.2.2.2.putChild (by decide)).putChild (by decide)⟩

theorem AdminReply.isResponse_message {r : AdminReply} (h : IsResponse r.msg) : IsResponse r.message :=
  ⟨h.1, h.2.1, h.2.2.1, everywhere_putFieldQ _ _ h.2.2.2 (by decide)⟩

/-- The command ends with an exception, or with a response of its own. -/
def Invoked.Responds : Invoked → Prop
  | .reply r => IsResponse r.msg
  | _        => True

theorem Invoked.Responds.isResponse {i : Invoked} (h : i.Responds) (reqseqno : Bytes) : IsResponse (i.response reqseqno).msg := by
  cases i with
  | reply r => exact AdminReply.isResponse_assign h
  | adminError code what => exact isResponse_errorResponse ..
  | exception what => exact isResponse_errorResponse ..
  | unknown => exact isResponse_errorResponse ..

section

variable {σ τ : Type} {atoi : Bytes → CInt} {invoke : Admins τ → τ → σ → AdminRequest → σ × Invoked}

/-- **Every request is answered by a response.** -/
theorem isResponse_answerRequest (hinvoke : ∀ admins target app req, (invoke admins target app req).2.Responds)
    (admins : Admins τ) (app : σ) (sid : Nat) (m : TxMessage) :
    IsResponse (answerRequest atoi invoke admins app sid m).2.msg := by
  unfold answerRequest
  dsimp only
  split
  · exact Invoked.Responds.isResponse (i := adminNotFound) trivial _
  · split
    · case h_1 e _ => exact Invoked.Responds.isResponse (i := .exception e.what) trivial _
    · exact (hinvoke ..).isResponse _

end

/-- The names of the attributes are carried. -/
def RegisteredAdmin.Plain {τ : Type} (ac : RegisteredAdmin τ) : Prop := ∀ a ∈ ac.attrs, PlainName a

/-- Every command stands under its name, and its description is carried. -/
def Admins.Ok {τ : Type} (admins : Admins τ) : Prop := ∀ (n : Bytes) (ac : RegisteredAdmin τ), admins[n]? = some ac → ac.name = n ∧ ac.Plain

theorem Admins.ok_empty {τ : Type} : Admins.Ok (∅ : Admins τ) := by
  intro n ac h
  simp at h

theorem Admins.Ok.add {τ : Type} {admins : Admins τ} (h : admins.Ok) {ac : RegisteredAdmin τ} (hac : ac.Plain) :
    (admins.add ac).Ok := by
  intro n ac' hn
  rw [Admins.add, Std.TreeMap.getElem?_insertIfNew] at hn
  split at hn
  · case isTrue hnew =>
    cases hn
    exact ⟨by simpa using hnew.1, hac⟩
  · exact h n ac' hn

/-- A command that is registered stays. -/
theorem Admins.getElem?_add {τ : Type} {admins : Admins τ} {n : Bytes} {ac : RegisteredAdmin τ} (h : admins[n]? = some ac)
    (ac' : RegisteredAdmin τ) : (admins.add ac')[n]? = some ac := by
  rw [Admins.add, Std.TreeMap.getElem?_insertIfNew, if_neg, h]
  rintro ⟨hname, hnew⟩
  obtain rfl : ac'.name = n := by simpa using hname
  exact hnew (Std.TreeMap.mem_iff_isSome_getElem?.2 (by rw [h]; rfl))

theorem Admins.Ok.plain {τ : Type} {admins : Admins τ} (h : admins.Ok) : ∀ ac ∈ admins.toList.map Prod.snd, ac.Plain := by
  intro ac hac
  obtain ⟨f, hf, rfl⟩ := List.mem_map.1 hac
  exact (h f.1 f.2 (Std.TreeMap.mem_toList_iff_getElem?_eq_some.1 hf)).2

theorem everywhere_putAdmins {τ : Type} : ∀ (acs : List (RegisteredAdmin τ)) (n : Nat) {adminset : List TxItem},
    Everywhere Carried adminset → (∀ ac ∈ acs, ac.Plain) → Everywhere Carried (putAll putAdmin n acs adminset)
  | [], _, _, h, _ => h
  | ac :: acs, n, _, h, hacs => by
    obtain ⟨hac, hrest⟩ := List.forall_mem_cons.1 hacs
    refine everywhere_putAdmins acs (n + 1) (h.modifyChild (plainName_numbered (by decide) (by decide) n) fun box hbox => ?_) hrest
    exact everywhere_putFields (((hbox.putField (by decide) _).putField (by decide) _).putField (by decide) _) hac

theorem plain_serialiseAdmins {τ : Type} {admins : Admins τ} (h : admins.Ok) : Plain (serialiseAdmins admins) := by
  refine plain_mk (by decide) ((everywhere_putFieldQ _ _ everywhere_carried_nil (by decide)).modifyChild (by decide) fun body hbody =>
    hbody.modifyChild (by decide) fun adminset hset => Everywhere.putField ?_ (by decide) _)
  exact everywhere_putAdmins _ 0 hset h.plain

/-! ## `help` lists every command once, in order -/

theorem sortNocase_perm (names : List Bytes) : (sortNocase names).Perm names := List.mergeSort_perm ..

theorem sortNocase_sorted (names : List Bytes) : (sortNocase names).Pairwise fun a b => compareNocase b a = false := by
  have htrans : ∀ a b c : Bytes, (!compareNocase b a) = true → (!compareNocase c b) = true → (!compareNocase c a) = true := by
    simp only [compareNocase, Bool.not_eq_true', decide_eq_false_iff_not, List.not_lt]
    exact fun a b c => List.le_trans
  have htotal : ∀ a b : Bytes, (!compareNocase b a || !compareNocase a b) = true := by
    simp only [compareNocase, Bool.or_eq_true, Bool.not_eq_true', decide_eq_false_iff_not, List.not_lt]
    exact fun a b => List.le_total ..
  have hsorted := List.pairwise_mergeSort htrans htotal names
  exact hsorted.imp fun h => by simpa using h

end Exio
