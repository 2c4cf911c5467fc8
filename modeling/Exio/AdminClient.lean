import Exio.Numbered
import Exio.SamRoundTrip
import Exio.AdminRequest
/-!
# AdminClient — the request of the command line client

The client (`admin.cc`) puts a command and its arguments into a request message: the command in the head and again in the
body, the number of arguments, and the arguments under numbered names.  The server decodes the message, takes the command
from it and makes an `AdminRequest`, whose constructor collects the arguments by their number.

The arguments are laid out as in `Numbered`; the name of the count has the arguments' prefix but is none of their names
(`argName_ne_argsCount`).  Every name of the message is plain, whatever the user types, so that the message survives the
wire, and **the server finds the command and the arguments that were given** (`request_received`).
-/
namespace Exio

open Sam DynamicSamBuffer

namespace Id

def dest     : Bytes := ascii "dest"
def source   : Bytes := ascii "source"
def user     : Bytes := ascii "user"
def reqseqno : Bytes := ascii "reqseqno"

end Id

/-- What `atoi` is relied on for: the numerals this code writes. -/
def ReadsNumerals (atoi : Bytes → CInt) : Prop := ∀ n : Nat, n < 2 ^ 31 → (atoi (Decimal.decimal n)).val = n

/-- `size_t n = atoi(..)` on a numeral. -/
theorem ReadsNumerals.size {atoi : Bytes → CInt} (h : ReadsNumerals atoi) {n : Nat} (hn : n < 2 ^ 31) :
    Word.ofInt 64 (atoi (Decimal.decimal n)).val = n := by
  rw [h n hn, Word.ofInt_natCast (by omega)]

theorem sampleAtoi_readsNumerals : ReadsNumerals sampleAtoi := by
  intro n hn
  have hv : Decimal.value (Decimal.decimal n) = n := Decimal.value_decimal n
  rw [sampleAtoi, dif_pos (by rw [hv]; exact hn)]
  exact congrArg Nat.cast hv

/-! ## The message -/

structure ProgramOptions where
  addr    : Bytes
  port    : Bytes
  cmd     : Bytes
  cmdargs : List Bytes

def argName (i : Nat) : Bytes := Id.argsPrefix ++ Decimal.decimal i

/-- One turn of the loop of `add_arguments`. -/
def putArgument (i : Nat) (arg : Bytes) (c : List TxItem) : List TxItem := putField c (argName i) arg

def addArguments (c : List TxItem) (args : List Bytes) : List TxItem :=
  Numbered.putAll putArgument 0 args (putField c Id.argsCount (Decimal.decimal args.length))

/-- What `__main` puts into the head behind the command. -/
def fillHead (o : ProgramOptions) (serviceid user : Bytes) (head : List TxItem) : List TxItem :=
  let head := putField head Id.dest (o.addr ++ ascii ":" ++ o.port)
  let head := putField head Id.source serviceid
  let head := putField head Id.user user
  putField head Id.reqseqno (ascii "0")

/-- The request of `__main`; `serviceid` and `user` are what the process finds out about itself. -/
def requestMessage (o : ProgramOptions) (serviceid user : Bytes) : TxMessage :=
  let root := putFieldQ o.cmd Id.qnCommand []
  let root := modifyChild root Id.head (fillHead o serviceid user)
  let root := modifyChild root Id.body fun body => addArguments (putField body Id.command o.cmd) o.cmdargs
  ⟨Id.msgRequest, root⟩

/-! ## The arguments under their numbers -/

theorem argName_injective {i j : Nat} (h : argName i = argName j) : i = j :=
  Decimal.decimal_injective (List.append_cancel_left h)

/-- `args_COUNT` has the prefix of the arguments, and no number behind it. -/
theorem argName_ne_argsCount (i : Nat) : argName i ≠ Id.argsCount := by
  intro h
  have hsplit : Id.argsCount = Id.argsPrefix ++ ascii "COUNT" := by decide
  rw [argName, hsplit] at h
  have hdec : Decimal.decimal i = ascii "COUNT" := List.append_cancel_left h
  -- 67 is the `C`
  have hdigit := Decimal.isDigit_of_mem_decimal i 67 (by rw [hdec]; decide)
  exact absurd hdigit (by decide)

theorem argName_ne_command (i : Nat) : argName i ≠ Id.command := by
  intro h
  have hhead : (argName i).head? = Id.command.head? := by rw [h]
  rw [argName, List.head?_append_of_ne_nil _ (by decide)] at hhead
  exact absurd hhead (by decide)

theorem lays_putArgument : Numbered.Lays (fun i c => findField (argName i) c) putArgument (fun _ arg => arg) where
  fresh i arg c _ := by rw [putArgument, findField_putField, if_pos rfl]
  other i j arg c hij := by rw [putArgument, findField_putField, if_neg fun h => hij (argName_injective h)]

/-- A field that is none of the arguments. -/
theorem findField_addArguments {f : Bytes} (hf : ∀ i, argName i ≠ f) (c : List TxItem) (args : List Bytes) :
    findField f (addArguments c args) =
      if Id.argsCount = f then some (Decimal.decimal args.length) else findField f c := by
  rw [addArguments, Numbered.putAll_keeps (g := findField f), findField_putField]
  intro i arg c
  rw [putArgument, findField_putField, if_neg (hf i)]

theorem findField_argName {c : List TxItem} (hc : ∀ i, findField (argName i) c = none) {args : List Bytes} {i : Nat}
    {arg : Bytes} (h : args[i]? = some arg) : findField (argName i) (addArguments c args) = some arg := by
  have hget := lays_putArgument.get_putAll args 0 (putField c Id.argsCount (Decimal.decimal args.length))
    (fun j _ => by rw [findField_putField, if_neg (argName_ne_argsCount j).symm, hc j]) i arg h
  simpa [addArguments] using hget

/-- **The loop of `init_args_ptrs` collects what stands under the numbers.** -/
theorem collectArgs_ok {body : List TxItem} : ∀ (args : List Bytes) (i : Nat),
    (∀ j arg, args[j]? = some arg → findField (argName (i + j)) body = some arg) →
    collectArgs body args.length i = .ok args
  | [], _, _ => rfl
  | arg :: args, i, h => by
    have hhead : findField (Id.argsPrefix ++ Decimal.decimal i) body = some arg := h 0 arg rfl
    have hrest : ∀ j a, args[j]? = some a → findField (argName (i + 1 + j)) body = some a := by
      intro j a ha
      rw [show i + 1 + j = i + (j + 1) by omega]
      exact h (j + 1) a (by simpa using ha)
    have ih := collectArgs_ok args (i + 1) hrest
    rw [List.length_cons, collectArgs, hhead]
    simp only [ih]
    rfl

/-! ## What the server reads -/

section

variable (o : ProgramOptions) (serviceid user : Bytes)

theorem findChild_head_request : findChild Id.head (requestMessage o serviceid user).root =
    some (fillHead o serviceid user (putField [] Id.command o.cmd)) := by
  simp only [requestMessage, putFieldQ, Id.qnCommand]
  rw [findChild_modifyChild, if_neg (by decide), findChild_modifyChild, if_pos rfl, findChild_modifyChild, if_pos rfl]
  rfl

theorem findChild_body_request : findChild Id.body (requestMessage o serviceid user).root =
    some (addArguments (putField [] Id.command o.cmd) o.cmdargs) := by
  simp only [requestMessage, putFieldQ, Id.qnCommand]
  rw [findChild_modifyChild, if_pos rfl, findChild_modifyChild, if_neg (by decide), findChild_modifyChild,
    if_neg (by decide)]
  rfl

theorem commandName_request (hcmd : o.cmd ≠ []) : commandName (requestMessage o serviceid user) = some o.cmd := by
  have hfield : findFieldQ Id.qnCommand (requestMessage o serviceid user).root = some o.cmd := by
    rw [Id.qnCommand, findFieldQ, findChild_head_request, Option.bind_some, findFieldQ]
    simp only [fillHead, findField_putField]
    simp [show Id.reqseqno ≠ Id.command by decide, show Id.user ≠ Id.command by decide,
      show Id.source ≠ Id.command by decide, show Id.dest ≠ Id.command by decide]
  rw [commandName, hfield]
  cases hc : o.cmd with
  | nil => exact absurd hc hcmd
  | cons c cs => rfl

theorem initArgs_request {atoi : Bytes → CInt} (hat : ReadsNumerals atoi) (hargs : o.cmdargs.length < 2 ^ 31) :
    initArgs atoi (requestMessage o serviceid user) = .ok o.cmdargs := by
  have hcount : findField Id.argsCount (addArguments (putField [] Id.command o.cmd) o.cmdargs) =
      some (Decimal.decimal o.cmdargs.length) := by
    rw [findField_addArguments argName_ne_argsCount, if_pos rfl]
  have hfresh : ∀ i, findField (argName i) (putField [] Id.command o.cmd) = none := by
    intro i
    rw [findField_putField, if_neg (argName_ne_command i).symm]
    rfl
  rw [initArgs, findChild_head_request, findChild_body_request]
  simp only [hcount, hat.size hargs]
  refine collectArgs_ok o.cmdargs 0 fun j arg harg => ?_
  rw [Nat.zero_add]
  exact findField_argName hfresh harg

/-- Every name of a request is one of the source's own, or a number behind one. -/
theorem carried_request : Everywhere Carried (requestMessage o serviceid user).root := by
  have hcommand : ∀ cs, Everywhere Carried cs → Everywhere Carried (putField cs Id.command o.cmd) :=
    fun cs h => h.putField (by decide) o.cmd
  have hhead : ∀ cs, Everywhere Carried cs → Everywhere Carried (fillHead o serviceid user cs) := by
    intro cs h
    exact (((h.putField (by decide) _).putField (by decide) _).putField (by decide) _).putField (by decide) _
  have hbody : ∀ cs, Everywhere Carried cs → Everywhere Carried (addArguments cs o.cmdargs) := by
    intro cs h
    refine Numbered.putAll_invariant (fun i arg c hc => ?_) o.cmdargs 0 (h.putField (by decide) _)
    exact hc.putField (plainName_numbered (by decide) (by decide) i) arg
  simp only [requestMessage, putFieldQ, Id.qnCommand]
  apply Everywhere.modifyChild
  · apply Everywhere.modifyChild
    · exact everywhere_carried_nil.modifyChild (by decide) hcommand
    · decide
    · exact hhead
  · decide
  · exact fun cs h => hbody _ (hcommand cs h)

end

/-- **The request of the client arrives**: the client's message is encoded, and whatever stands behind it in the
server's buffer, the server decodes a message in which it finds the command and the arguments, in order. -/
theorem request_received {w : Nat} (hw : 32 ≤ w) {atoi : Bytes → CInt} (hat : ReadsNumerals atoi) {o : ProgramOptions}
    (hcmd : o.cmd ≠ []) (hargs : o.cmdargs.length < 2 ^ 31) (serviceid user : Bytes)
    (hmax : (encoding (requestMessage o serviceid user)).length ≤ maxMsglen) {reserve : Nat}
    (hres : reserve ≤ vectorMaxSize) :
    ∃ n sb, encodeMsg (requestMessage o serviceid user) (new reserve) = .ok (n, sb) ∧
      ∀ (past : UInt8) (old : TxMessage) (s : Bytes), ∃ m,
        decodeMsg w (some past) old (sb.payload ++ s) = .ok (sb.payload.length, m) ∧
        commandName m = some o.cmd ∧ initArgs atoi m = .ok o.cmdargs := by
  obtain ⟨n, sb, henc, hpay, hframe, hself, hn⟩ := encodeMsg_frame hmax hres
  refine ⟨n, sb, henc, fun past old s => ⟨requestMessage o serviceid user, ?_, ?_, ?_⟩⟩
  · have ht : metaDelim ∉ Id.msgRequest ∧ escape ∉ Id.msgRequest := by decide
    rw [hpay, hframe, decodeMsg_frame hw ht.1 ht.2 (carried_request o serviceid user) hself hn, hself]
  · exact commandName_request o serviceid user hcmd
  · exact initArgs_request o serviceid user hat hargs

/-- `echo` with arguments that hold delimiters, an escape and nothing at all. -/
def sampleOptions : ProgramOptions :=
  ⟨ascii "host", ascii "55555", ascii "echo", [ascii "a=[b],c", ascii "\\", []]⟩

theorem request_received_sample :
    ∃ n sb, encodeMsg (requestMessage sampleOptions (ascii "admin") (ascii "me")) (new 512) = .ok (n, sb) ∧
      ∀ (past : UInt8) (old : TxMessage) (s : Bytes), ∃ m,
        decodeMsg 64 (some past) old (sb.payload ++ s) = .ok (sb.payload.length, m) ∧
        commandName m = some (ascii "echo") ∧ initArgs sampleAtoi m = .ok [ascii "a=[b],c", ascii "\\", []] :=
  request_received (by decide) sampleAtoi_readsNumerals (by decide) (by decide) (ascii "admin") (ascii "me")
    (by decide +kernel) (by decide)

end Exio
