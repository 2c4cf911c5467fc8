import Exio.AdminServer
/-!
# AdminListener — what the command line client makes of the server's messages

`AdminListener` (`admin.cc`) prints a response and takes the return value of the program from it.  The main thread waits until
the session is no longer open: a response that is not to be followed by others has come, or a bye, or the connection has ended.

The responses of the server are printed as they were made: a text with its code, a list with one line for each of its values
(`printResponse_errorResponse`, `printBody_simplelist`).  What the server adds to a response before it is sent is not
printed (`printResponse_message`).
-/
namespace Exio

open Sam

/-! ## Printing -/

def newline : Bytes := ascii "\n"

/-- A line of a table. -/
def printRow (cells : List Bytes) : Bytes := (cells.intersperse (ascii ", ")).flatten ++ newline

/-- The lines of `handle_table_response`. -/
def Grid.print (g : Grid) : Bytes :=
  (if g.columns ≠ [] ∧ g.synthetic = false then printRow g.columns else []) ++ g.rows.flatMap printRow

/-- A text, with a newline unless it ends with one. -/
def printText (text : Bytes) : Bytes :=
  if text = [] then [] else if text.getLast? = some 10 then text else text ++ newline

def checkField (f v : Bytes) (is : List TxItem) : Bool := findField f is == some v

def printBody (atoi : Bytes → CInt) : Option (List TxItem) → Bytes
  | none      => ascii "NO FORMAT\n"
  | some body =>
    if checkField Id.resptype Id.table body then ((handleTableResponse atoi body).map Grid.print).getD []
    else if checkField Id.resptype Id.text body then
      (((findChild Id.respdata body).bind (findField Id.text)).map printText).getD []
    else ascii "NO FORMAT\n"

/-- The code of a response. -/
def rescodeOf (atoi : Bytes → CInt) (m : TxMessage) : Int :=
  match findFieldQ Id.qnRescode m.root with
  | some v => (atoi v).val
  | none   => -1

/-- What `handle_reponse` prints. -/
def printResponse (atoi : Bytes → CInt) (m : TxMessage) : Bytes :=
  let retval := rescodeOf atoi m
  (if retval = 0 then [] else Decimal.signed retval ++ ascii " FAIL, ") ++
    (((findFieldQ Id.qnRestext m.root).map fun t => t ++ newline).getD [] ++ printBody atoi (findChild Id.body m.root))

/-! ## The listener -/

/-- `m_session_open`, `m_retval`, and what was printed. -/
structure AdminListener where
  sessionOpen : Bool
  retval      : Int
  out         : Bytes
deriving DecidableEq

namespace AdminListener

def new : AdminListener := ⟨true, 0, []⟩

def triggerClose (l : AdminListener) (retval : Int) : AdminListener := { l with sessionOpen := false, retval := retval }

def handleReponse (atoi : Bytes → CInt) (l : AdminListener) (m : TxMessage) : AdminListener :=
  let l := { l with out := l.out ++ printResponse atoi m }
  if hasPending m then l else l.triggerClose (rescodeOf atoi m)

/-- `session_msg_received`, for a program that was given a command: other messages are not shown. -/
def sessionMsgReceived (atoi : Bytes → CInt) (l : AdminListener) (m : TxMessage) : AdminListener :=
  if m.type = Id.msgBye then l.triggerClose 0
  else if m.type = Id.msgResponse then l.handleReponse atoi m
  else l

def sessionClosed (l : AdminListener) : AdminListener := { l with sessionOpen := false }

end AdminListener

/-! ## Responses as they are printed -/

/-- What `atoi` is relied on for: the integers the server writes. -/
def ReadsInts (atoi : Bytes → CInt) : Prop := ∀ n : Int, -(2 ^ 31) ≤ n → n < 2 ^ 31 → (atoi (Decimal.signed n)).val = n

theorem ReadsInts.readsNumerals {atoi : Bytes → CInt} (h : ReadsInts atoi) : ReadsNumerals atoi := by
  intro n hn
  have hsigned : Decimal.signed n = Decimal.decimal n := if_neg (by omega)
  rw [← hsigned]
  exact h n (by omega) (by omega)

/-- `atoi` on the numerals of integers. -/
def signedAtoi (w : Bytes) : CInt :=
  if h : -(2 ^ 31) ≤ Decimal.signedValue w ∧ Decimal.signedValue w < 2 ^ 31 then ⟨Decimal.signedValue w, h.1, h.2⟩
  else sampleAtoi w

theorem signedAtoi_readsInts : ReadsInts signedAtoi := by
  intro n hlo hhi
  have hv : Decimal.signedValue (Decimal.signed n) = n := Decimal.signedValue_signed n
  rw [signedAtoi, dif_pos (by rw [hv]; exact ⟨hlo, hhi⟩)]
  exact hv

section

variable {atoi : Bytes → CInt}

/-- The client does not look at what the server adds to a response. -/
theorem findFieldQ_message (r : AdminReply) {q : List Bytes} (hq : q ≠ [] ∧ q ≠ Id.qnMsgtype) :
    findFieldQ q r.assign.message.root = findFieldQ q r.msg.root := by
  rw [AdminReply.message, findFieldQ_putFieldQ _ _ _ _ (by decide) hq.1 hq.2]
  exact (findFieldQ_putChildQ [Id.body] q _).trans (findFieldQ_putChildQ [Id.head] q _)

theorem rescodeOf_message (r : AdminReply) : rescodeOf atoi r.assign.message = rescodeOf atoi r.msg := by
  rw [rescodeOf, rescodeOf, findFieldQ_message r (by decide)]

theorem hasPending_message (r : AdminReply) : hasPending r.assign.message = hasPending r.msg := by
  rw [hasPending, hasPending, checkFieldQ, checkFieldQ, findFieldQ_message r (by decide)]

/-- **A response is printed as the command made it.** -/
theorem printResponse_message (r : AdminReply) : printResponse atoi r.assign.message = printResponse atoi r.msg := by
  have hbody : printBody atoi (findChild Id.body r.assign.message.root) = printBody atoi (findChild Id.body r.msg.root) := by
    have hchild : findChild Id.body r.assign.message.root = some ((findChild Id.body r.msg.root).getD []) := by
      rw [AdminReply.message, Id.qnMsgtype, findChild_body_head, AdminReply.assign, findChild_putChild, if_pos rfl, findChild_putChild,
        if_neg (by decide)]
    rw [hchild]
    -- a response without a body and one with an empty body have no format
    cases findChild Id.body r.msg.root with
    | none => rfl
    | some body => rfl
  rw [printResponse, printResponse, rescodeOf_message, findFieldQ_message r (by decide), hbody]

/-! ### The responses of `AdminResponse` -/

/-- What a command begins its response with. -/
def begun (reqseqno : Bytes) (code : Int) : TxMessage := setPending false (addRescode code (adminResponse reqseqno))

theorem findFieldQ_onBody_head (f : List TxItem → List TxItem) (m : TxMessage) (n : Bytes) :
    findFieldQ [Id.head, n] (onBody f m).root = findFieldQ [Id.head, n] m.root := by
  rw [findFieldQ_cons, findFieldQ_cons, onBody, findChild_modifyChild, if_neg (by decide)]

theorem findFieldQ_begun_restext (reqseqno : Bytes) (code : Int) : findFieldQ Id.qnRestext (begun reqseqno code).root = none := by
  rw [begun, setPending, findFieldQ_putFieldQ _ _ _ _ (by decide) (by decide) (by decide), addRescode,
    findFieldQ_putFieldQ _ _ _ _ (by decide) (by decide) (by decide), adminResponse,
    findFieldQ_putFieldQ _ _ _ _ (by decide) (by decide) (by decide)]
  decide

theorem findChild_begun_body (reqseqno : Bytes) (code : Int) : findChild Id.body (begun reqseqno code).root = some [] := by
  rw [begun, setPending, Id.qnPending, findChild_body_head, addRescode, Id.qnRescode, findChild_body_head, adminResponse,
    Id.qnHeadReqseqno, findChild_body_head]
  decide

section

variable (f : List TxItem → List TxItem) (reqseqno : Bytes)

theorem hasPending_begun (code : Int) : hasPending (onBody f (begun reqseqno code)) = false := by
  have hfield : findFieldQ Id.qnPending (onBody f (begun reqseqno code)).root = some Id.false_ := by
    rw [Id.qnPending, findFieldQ_onBody_head]
    exact findFieldQ_putFieldQ_self ..
  rw [hasPending, checkFieldQ, hfield]
  decide

theorem rescodeOf_begun (h : ReadsInts atoi) {code : Int} (hlo : -(2 ^ 31) ≤ code) (hhi : code < 2 ^ 31) :
    rescodeOf atoi (onBody f (begun reqseqno code)) = code := by
  have hfield : findFieldQ Id.qnRescode (onBody f (begun reqseqno code)).root = some (Decimal.signed code) := by
    rw [Id.qnRescode, findFieldQ_onBody_head, begun, setPending, findFieldQ_putFieldQ _ _ _ _ (by decide) (by decide) (by decide)]
    exact findFieldQ_putFieldQ_self ..
  rw [rescodeOf, hfield]
  exact h code hlo hhi

/-- A response with a body made by `f`, as it is printed. -/
theorem printResponse_begun (h : ReadsInts atoi) {code : Int} (hlo : -(2 ^ 31) ≤ code) (hhi : code < 2 ^ 31) :
    printResponse atoi (onBody f (begun reqseqno code)) =
      (if code = 0 then [] else Decimal.signed code ++ ascii " FAIL, ") ++ printBody atoi (some (f [])) := by
  rw [printResponse, rescodeOf_begun f reqseqno h hlo hhi, Id.qnRestext, findFieldQ_onBody_head, ← Id.qnRestext,
    findFieldQ_begun_restext, findChild_body_onBody, findChild_begun_body]
  rfl

end

/-- **A text is printed with its code, unless that is 0.** -/
theorem printResponse_errorResponse (h : ReadsInts atoi) (reqseqno : Bytes) {code : Int} (hlo : -(2 ^ 31) ≤ code)
    (hhi : code < 2 ^ 31) (str : Bytes) :
    printResponse atoi (errorResponse reqseqno code str) =
      (if code = 0 then [] else Decimal.signed code ++ ascii " FAIL, ") ++ printText str := by
  have hbody : printBody atoi (some (formatreplyString str [])) = printText str := by
    have htable : checkField Id.resptype Id.table (formatreplyString str []) = false := by
      rw [checkField, formatreplyString, findField_modifyChild, findField_putField, if_pos rfl]
      decide
    have htext : checkField Id.resptype Id.text (formatreplyString str []) = true := by
      rw [checkField, formatreplyString, findField_modifyChild, findField_putField, if_pos rfl]
      decide
    have hdata : (findChild Id.respdata (formatreplyString str [])).bind (findField Id.text) = some str := by
      rw [formatreplyString, findChild_modifyChild, if_pos rfl, Option.bind_some, findField_putField, if_pos rfl]
    rw [printBody, htable, if_neg Bool.false_ne_true, htext, if_pos rfl, hdata]
    rfl
  rw [← hbody]
  exact printResponse_begun (formatreplyString str) reqseqno h hlo hhi

/-- **A list is printed with a line for each value.** -/
theorem printBody_simplelist (h : ReadsInts atoi) {values : List Bytes} (hlen : values.length < 2 ^ 31) {name : Option Bytes}
    (hname : name ≠ some Id.rowKey) :
    printBody atoi (some (formatreplySimplelist values name [])) = values.flatMap fun v => v ++ newline := by
  have htable : checkField Id.resptype Id.table (formatreplySimplelist values name []) = true := by
    rw [checkField, formatreplySimplelist]
    simp only [findField_inRespdata, putChildQ_respdata, findField_putField]
    decide
  have hgrid := handleTableResponse_simplelist h.readsNumerals hlen hname (show findChild Id.respdata [] = none from rfl)
  have hrow : ∀ v : Bytes, printRow [v] = v ++ newline := by
    intro v
    simp [printRow]
  rw [printBody, htable, if_pos rfl, hgrid]
  simp only [Option.map_some, Option.getD_some, Grid.print, reduceCtorEq, and_false, if_false, List.nil_append, List.flatMap_map,
    hrow]

end

/-! ## `help` -/

section

variable {τ : Type} {atoi : Bytes → CInt}

theorem admincmdHelp_nil (admins : Admins τ) {request : AdminRequest} (hargs : request.args = []) :
    (admincmdHelp admins request).msg =
      onBody (formatreplySimplelist (sortNocase admins.keys) (some (ascii "admin"))) (begun request.reqseqno 0) := by
  rw [admincmdHelp, hargs]
  rfl

end

/-- **`help` shows every command once**, one in a line and in the order of `strcasecmp`, and the client returns 0. -/
theorem help_shown {τ : Type} {atoi : Bytes → CInt} (hat : ReadsInts atoi) (admins : Admins τ) (hsize : admins.size < 2 ^ 31)
    {request : AdminRequest} (hargs : request.args = []) :
    ∃ names : List Bytes, (∀ n, n ∈ names ↔ n ∈ admins) ∧ names.Nodup ∧
      (names.Pairwise fun a b => compareNocase b a = false) ∧
      AdminListener.new.sessionMsgReceived atoi (admincmdHelp admins request).assign.message =
        ⟨false, 0, names.flatMap fun n => n ++ newline⟩ := by
  have hperm := sortNocase_perm admins.keys
  have hlen : (sortNocase admins.keys).length < 2 ^ 31 := by
    rw [hperm.length_eq, Std.TreeMap.length_keys]
    exact hsize
  have hmsg := admincmdHelp_nil admins hargs
  have hprint : printResponse atoi (admincmdHelp admins request).msg = (sortNocase admins.keys).flatMap fun n => n ++ newline := by
    rw [hmsg, printResponse_begun _ _ hat (by decide) (by decide), printBody_simplelist hat hlen (by decide)]
    rfl
  have hcode : rescodeOf atoi (admincmdHelp admins request).msg = 0 := by
    rw [hmsg]
    exact rescodeOf_begun _ _ hat (by decide) (by decide)
  have hpending : hasPending (admincmdHelp admins request).msg = false := by
    rw [hmsg]
    exact hasPending_begun ..
  have htype : (admincmdHelp admins request).assign.message.type = Id.msgResponse := congrArg TxMessage.type hmsg
  refine ⟨sortNocase admins.keys, fun n => ?_, ?_, sortNocase_sorted _, ?_⟩
  · rw [hperm.mem_iff, Std.TreeMap.mem_keys]
  · exact hperm.nodup_iff.2 Std.TreeMap.nodup_keys
  · rw [AdminListener.sessionMsgReceived, htype, if_neg (by decide), if_pos rfl, AdminListener.handleReponse, hasPending_message,
      hpending, printResponse_message, hprint, rescodeOf_message, hcode]
    rfl

/-- Three commands of an application; `b` and `B` are the same to `strcasecmp`. -/
def sampleAdmins : Admins Unit :=
  [ascii "b", ascii "B", ascii "a"].foldl (fun admins name => admins.add ⟨name, [], [], (), ∅⟩) ∅

theorem help_shown_sample : ∃ names : List Bytes, (∀ n, n ∈ names ↔ n ∈ sampleAdmins) ∧ names.Nodup ∧
    (names.Pairwise fun a b => compareNocase b a = false) ∧
    AdminListener.new.sessionMsgReceived signedAtoi
        (admincmdHelp sampleAdmins ⟨⟨Id.msgRequest, []⟩, 1, [], ascii "0"⟩).assign.message =
      ⟨false, 0, names.flatMap fun n => n ++ newline⟩ :=
  help_shown signedAtoi_readsInts sampleAdmins (by decide +kernel) rfl

end Exio
