import Exio.Word
import Exio.Sessions
/-!
# AdminRequest — an admin request and the slots it reads

`handle_admin_request` finds the command of a request message, makes an `AdminRequest` of its arguments and runs the
command.  Here each command is modelled by the indices at which it reads `m_sessions.reg`, in order: the array has
`SESSION_REG_SIZE` slots and no accessor checks its index.

Other threads run between the critical sections of a command: `view k` is the state that the `k`-th of them finds.  `mem i` says
whether what lies at index `i` outside the array reads as a slot in use.  `atoi` is any function from strings to `int`.  The
admins are the built-in ones; what an application's own admin does is the application's.
-/
namespace Exio

open Sam

namespace Id

def command    : Bytes := ascii "command"
def argsCount  : Bytes := ascii "args_COUNT"
def argsPrefix : Bytes := ascii "args_"

def qnCommand     : List Bytes := [head, command]
def qnBodyCommand : List Bytes := [body, command]

def errUnknown       : Nat := 1
def errAdminNotFound : Nat := 2
def errNoTable       : Nat := 3
def errBadCommand    : Nat := 4
def errNoSession     : Nat := 5

def errorCodeStr (e : Nat) : Bytes :=
  if e = errUnknown then ascii "unknown"
  else if e = errAdminNotFound then ascii "admin not found"
  else if e = errNoTable then ascii "table not found"
  else if e = errBadCommand then ascii "bad command"
  else if e = errNoSession then ascii "no session"
  else ascii "unknown error code"

end Id

/-- A value of the type `int`. -/
structure CInt where
  val : Int
  lo  : -(2 ^ 31) ≤ val
  hi  : val < 2 ^ 31

/-- The code and the text of a failed request's response. -/
structure AdminFailure where
  code : Nat
  what : Bytes
deriving DecidableEq

def adminError (code : Nat) : AdminFailure := ⟨code, Id.errorCodeStr code⟩

/-- The built-in admins. -/
inductive AdminCommand where
  | table
  | sessions
  | help
  | info
  | snapshot
  | diags
  | dropSession
deriving DecidableEq

def AdminCommand.name : AdminCommand → Bytes
  | .table       => ascii "table"
  | .sessions    => ascii "sessions"
  | .help        => ascii "help"
  | .info        => ascii "info"
  | .snapshot    => ascii "snapshot"
  | .diags       => ascii "diags"
  | .dropSession => ascii "drop_session"

def adminFind (name : Bytes) : Option AdminCommand :=
  [.table, .sessions, .help, .info, .snapshot, .diags, .dropSession].find? (fun c => c.name == name)

/-! ## The request -/

/-- The command field of a request, in the head or in the body. -/
def commandName (m : TxMessage) : Option Bytes :=
  match findFieldQ Id.qnCommand m.root with
  | some (c :: cs)   => some (c :: cs)
  | some [] | none   =>
    match findFieldQ Id.qnBodyCommand m.root with
    | some (c :: cs) => some (c :: cs)
    | some [] | none => none

def missingField (name : Bytes) : AdminFailure := ⟨Id.errAdminNotFound, ascii "missing required field: " ++ name⟩

/-- The argument loop of `init_args_ptrs`, from index `i` for `n` more. -/
def collectArgs (body : List TxItem) : Nat → Nat → Except AdminFailure (List Bytes)
  | 0, _     => .ok []
  | n + 1, i =>
    match findField (Id.argsPrefix ++ Decimal.decimal i) body with
    | none   => .error (missingField (Id.argsPrefix ++ Decimal.decimal i))
    | some v => (collectArgs body n (i + 1)).map (fun vs => v :: vs)

/-- `init_args_ptrs`; the count is an `int` stored in a `size_t`. -/
def initArgs (atoi : Bytes → CInt) (m : TxMessage) : Except AdminFailure (List Bytes) :=
  match findChild Id.head m.root, findChild Id.body m.root with
  | none, _           => .error (missingField Id.head)
  | some _, none      => .error (missingField Id.body)
  | some _, some body =>
    match findField Id.argsCount body with
    | none   => .ok []
    | some c => collectArgs body (Word.ofInt 64 (atoi c).val) 0

/-- The command and the arguments of a request. -/
def parseRequest (atoi : Bytes → CInt) (m : TxMessage) : Except AdminFailure (AdminCommand × List Bytes) :=
  match (commandName m).bind adminFind with
  | none   => .error (adminError Id.errAdminNotFound)
  | some c => (initArgs atoi m).map (fun args => (c, args))

/-! ## The slots a command reads -/

/-- `SID::fromString`. -/
def sidFromString (atoi : Bytes → CInt) (arg : Bytes) : Nat := Word.ofInt 64 (atoi arg).val

section

variable (atoi : Bytes → CInt) (mem : Nat → Bool) (view : Nat → Admin) (encodes : Bytes → Bool)

/-- `m_sessions.reg[i].used()`. -/
def used (s : Admin) (i : Nat) : Bool := if i < sessionRegSize then (s.reg i).isSome else mem i

/-- `session_stop_one`: the index is used for `used()`, and again for the session. -/
def sessionStopOne (s : Admin) (i : Nat) : List Nat := if used mem s i then [i, i] else [i]

/-- The loop of `admincmd_del_session`, from critical section `k` on: `session_exists`, and `session_stop_one` if so. -/
def delSessions : Nat → List Bytes → List Nat
  | _, []          => []
  | k, arg :: args =>
    let s := sidFromString atoi arg
    if s ≠ 0 then
      if used mem (view k) s then s :: (sessionStopOne mem (view (k + 1)) s ++ delSessions (k + 2) args)
      else s :: delSessions (k + 1) args
    else delSessions k args

/-- A loop over the registry that looks at the session of each slot in use. -/
def scanRegistry (s : Admin) : List Nat :=
  (List.range sessionRegSize).flatMap fun i => if (s.reg i).isSome then [i, i] else [i]

/-- The rows of `admincmd_sessions`: `session_info`, and the service id. -/
def sessionRows : Nat → List Nat → List Nat
  | _, []          => []
  | k, sid :: sids => sid :: ((if used mem (view (k + 1)) sid then [sid, sid] else [sid]) ++ sessionRows (k + 2) sids)

/-- `copy_subscribers`: the subscribers for which `session_exists`. -/
def copySubscribers : Nat → List Subscriber → List Nat
  | _, []      => []
  | k, e :: es =>
    if used mem (view k) e.sid then e.sid :: copySubscribers (k + 1) es else copySubscribers (k + 1) es

/-- `broadcast_snapshot`: `session_exists` for each subscriber of a table, then `send_one` for each that does.  A table
that cannot be encoded ends it with an exception. -/
def broadcastSnapshot : Nat → List Subscriptions → List Nat × Option AdminFailure
  | _, []      => ([], none)
  | k, t :: ts =>
    let subs := copySubscribers mem view k t.2
    if encodes t.1 || subs.isEmpty then
      let r := broadcastSnapshot (k + t.2.length + subs.length) ts
      (t.2.map Subscriber.sid ++ (subs ++ r.1), r.2)
    else (t.2.map Subscriber.sid, some ⟨Id.errAdminNotFound, ascii "failed to encode snapshot"⟩)

/-- `admincmd_diags`: the count of the sessions, and the list of them. -/
def diagsScan (s : Admin) (sections : List Bytes) : List Nat :=
  (if sections.isEmpty then List.range sessionRegSize else []) ++
    (if sections.isEmpty || sections.contains (ascii "sessions") then scanRegistry s else [])

/-- The indices a command uses and the exception it throws, if any. -/
def invoke (args : List Bytes) : AdminCommand → List Nat × Option AdminFailure
  | .table | .help | .info => ([], none)
  | .sessions    => (scanRegistry (view 0) ++ sessionRows mem view 1 ((sessionList (view 0)).map Subscriber.sid), none)
  | .snapshot    => broadcastSnapshot mem view encodes 1 (view 0).tables
  | .diags       => (diagsScan (view 0) args, none)
  | .dropSession =>
    if args.isEmpty then ([], some (adminError Id.errBadCommand)) else (delSessions atoi mem view 0 args, none)

/-- **`handle_admin_request`**: the indices at which it reads the registry. -/
def handleAdminRequest (m : TxMessage) : List Nat × Option AdminFailure :=
  match parseRequest atoi m with
  | .error e      => ([], some e)
  | .ok (c, args) => invoke atoi mem view encodes args c

end

/-! ## Which indices are inside -/

theorem sidFromString_lt_iff (atoi : Bytes → CInt) (arg : Bytes) :
    sidFromString atoi arg < sessionRegSize ↔ 0 ≤ (atoi arg).val ∧ (atoi arg).val ≤ maxSessions := by
  unfold sidFromString
  generalize atoi arg = c
  obtain ⟨z, hlo, hhi⟩ := c
  simp only [sessionRegSize, maxSessions]
  by_cases hz : 0 ≤ z
  · obtain ⟨n, rfl⟩ := Int.eq_ofNat_of_zero_le hz
    rw [Word.ofInt_natCast (by omega)]
    omega
  · have hneg := Word.ofInt_of_neg (w := 64) (z := z) (by omega) (by omega)
    omega

theorem lt_of_mem_scanRegistry {s : Admin} {i : Nat} (h : i ∈ scanRegistry s) : i < sessionRegSize := by
  obtain ⟨j, hj, hi⟩ := List.mem_flatMap.1 h
  have hij : i = j := by
    split at hi
    · simpa using hi
    · simpa using hi
  rw [hij]
  exact List.mem_range.1 hj

section

variable (atoi : Bytes → CInt) (mem : Nat → Bool) (view : Nat → Admin) (encodes : Bytes → Bool)

/-- **`drop_session` uses the index of every argument but 0.** -/
theorem delSessions_lt_iff : ∀ (args : List Bytes) (k : Nat),
    (∀ i ∈ delSessions atoi mem view k args, i < sessionRegSize) ↔
      ∀ arg ∈ args, sidFromString atoi arg < sessionRegSize
  | [], _ => by simp [delSessions]
  | arg :: args, k => by
    unfold delSessions
    simp only [List.forall_mem_cons]
    by_cases hz : sidFromString atoi arg = 0
    · rw [if_neg (not_not_intro hz), delSessions_lt_iff args k, hz]
      simp [sessionRegSize]
    · rw [if_pos hz]
      split
      · rw [List.forall_mem_cons, List.forall_mem_append, delSessions_lt_iff args (k + 2)]
        unfold sessionStopOne
        constructor
        · rintro ⟨h1, -, h3⟩
          exact ⟨h1, h3⟩
        · rintro ⟨h1, h3⟩
          refine ⟨h1, fun i hi => ?_, h3⟩
          have hi' : i = sidFromString atoi arg := by
            split at hi
            · simpa using hi
            · simpa using hi
          rw [hi']
          exact h1
      · rw [List.forall_mem_cons, delSessions_lt_iff args (k + 1)]

theorem mem_of_mem_sessionRows : ∀ (sids : List Nat) (k : Nat) {i : Nat}, i ∈ sessionRows mem view k sids → i ∈ sids
  | sid :: sids, k, i, h => by
    unfold sessionRows at h
    rcases List.mem_cons.1 h with rfl | h
    · exact List.mem_cons_self
    · rcases List.mem_append.1 h with h | h
      · have hi : i = sid := by
          split at h
          · simpa using h
          · simpa using h
        rw [hi]
        exact List.mem_cons_self
      · exact List.mem_cons_of_mem _ (mem_of_mem_sessionRows sids (k + 2) h)

theorem mem_of_mem_copySubscribers : ∀ (es : List Subscriber) (k : Nat) {i : Nat}, i ∈ copySubscribers mem view k es →
    i ∈ es.map Subscriber.sid
  | e :: es, k, i, h => by
    unfold copySubscribers at h
    rw [List.map_cons]
    split at h
    · rcases List.mem_cons.1 h with rfl | h
      · exact List.mem_cons_self
      · exact List.mem_cons_of_mem _ (mem_of_mem_copySubscribers es (k + 1) h)
    · exact List.mem_cons_of_mem _ (mem_of_mem_copySubscribers es (k + 1) h)

theorem mem_of_mem_broadcastSnapshot : ∀ (ts : List Subscriptions) (k : Nat) {i : Nat},
    i ∈ (broadcastSnapshot mem view encodes k ts).1 → ∃ t ∈ ts, i ∈ t.2.map Subscriber.sid
  | t :: ts, k, i, h => by
    unfold broadcastSnapshot at h
    simp only at h
    split at h
    · rcases List.mem_append.1 h with h | h
      · exact ⟨t, List.mem_cons_self, h⟩
      · rcases List.mem_append.1 h with h | h
        · exact ⟨t, List.mem_cons_self, mem_of_mem_copySubscribers mem view t.2 k h⟩
        · obtain ⟨t', ht', hi⟩ := mem_of_mem_broadcastSnapshot ts _ h
          exact ⟨t', List.mem_cons_of_mem _ ht', hi⟩
    · exact ⟨t, List.mem_cons_self, h⟩

/-- Every command but `drop_session` takes its indices from the registry and the tables. -/
theorem invoke_lt (hview : (view 0).Inv) (args : List Bytes) {c : AdminCommand} (hc : c ≠ .dropSession) :
    ∀ i ∈ (invoke atoi mem view encodes args c).1, i < sessionRegSize := by
  intro i hi
  cases c with
  | table | help | info => exact absurd hi List.not_mem_nil
  | sessions =>
    rcases List.mem_append.1 hi with hi | hi
    · exact lt_of_mem_scanRegistry hi
    · obtain ⟨e, he, rfl⟩ := List.mem_map.1 (mem_of_mem_sessionRows mem view _ _ hi)
      obtain ⟨hlt, hid⟩ := hview.sessionList he
      rw [hid]
      exact Nat.lt_succ_of_le (hview.ids e.holder hlt).2
  | snapshot =>
    obtain ⟨t, ht, hi⟩ := mem_of_mem_broadcastSnapshot mem view encodes _ _ hi
    obtain ⟨e, he, rfl⟩ := List.mem_map.1 hi
    exact hview.sid_lt ht he
  | diags =>
    rcases List.mem_append.1 hi with hi | hi
    · split at hi
      · exact List.mem_range.1 hi
      · exact absurd hi List.not_mem_nil
    · split at hi
      · exact lt_of_mem_scanRegistry hi
      · exact absurd hi List.not_mem_nil
  | dropSession => exact absurd rfl hc

end

/-- The request is not one to drop a session, or all its arguments are numbers of slots. -/
def DropsSlots (atoi : Bytes → CInt) (m : TxMessage) : Prop :=
  ∀ args, parseRequest atoi m = .ok (.dropSession, args) →
    ∀ arg ∈ args, 0 ≤ (atoi arg).val ∧ (atoi arg).val ≤ maxSessions

/-- **Every index a request uses is inside the registry exactly when it names no session outside it**, with any states of the
server between the critical sections. -/
theorem registry_index_safety (atoi : Bytes → CInt) (mem : Nat → Bool) (view : Nat → Admin) (encodes : Bytes → Bool)
    (hview : ∀ k, Steps.Reaches sessionStep Steps.Always Admin.new (view k)) (m : TxMessage) :
    (∀ i ∈ (handleAdminRequest atoi mem view encodes m).1, i < sessionRegSize) ↔ DropsSlots atoi m := by
  have hinv : (view 0).Inv := (hview 0).invariant Admin.new_inv (fun h _ hst => sessionStep_inv h hst)
  unfold handleAdminRequest DropsSlots
  cases hp : parseRequest atoi m with
  | error e => simp
  | ok r =>
    obtain ⟨c, args⟩ := r
    simp only [Except.ok.injEq, Prod.mk.injEq]
    by_cases hc : c = .dropSession
    · subst hc
      constructor
      · rintro h args' ⟨-, rfl⟩ arg harg
        rw [← sidFromString_lt_iff]
        have hne : args.isEmpty = false := by
          cases args with
          | nil => cases harg
          | cons => rfl
        simp only [invoke, hne, Bool.false_eq_true, if_false] at h
        exact (delSessions_lt_iff atoi mem view args 0).1 h arg harg
      · intro h
        simp only [invoke]
        split
        · intro i hi
          cases hi
        · exact (delSessions_lt_iff atoi mem view args 0).2
            (fun arg harg => (sidFromString_lt_iff atoi arg).2 (h args ⟨rfl, rfl⟩ arg harg))
    · constructor
      · rintro - args' ⟨hc', -⟩
        exact absurd hc' hc
      · intro _
        exact invoke_lt atoi mem view encodes hinv args hc

/-- `atoi` on numerals. -/
def sampleAtoi (w : Bytes) : CInt :=
  if h : Decimal.value w < 2 ^ 31 then ⟨Decimal.value w, by omega, by omega⟩ else ⟨0, by decide, by decide⟩

/-- A request to drop the session of that number. -/
def sampleDrop (sid : String) : TxMessage :=
  ⟨Id.msgRequest, [.container Id.head [.field Id.command (ascii "drop_session")],
    .container Id.body [.field Id.argsCount (ascii "1"), .field (ascii "args_0") (ascii sid)]]⟩

theorem dropsSlots_sample : DropsSlots sampleAtoi (sampleDrop "2000") := by
  intro args hargs
  have hparse : parseRequest sampleAtoi (sampleDrop "2000") = .ok (.dropSession, [ascii "2000"]) := by rfl
  rw [hparse] at hargs
  cases hargs
  decide +kernel

theorem registry_index_safety_sample :
    DropsSlots sampleAtoi (sampleDrop "2000") ∧
    ∀ i ∈ (handleAdminRequest sampleAtoi (fun _ => false) (fun _ => Admin.new) (fun _ => true) (sampleDrop "2000")).1,
      i < sessionRegSize :=
  ⟨dropsSlots_sample,
    (registry_index_safety sampleAtoi _ _ _ (fun _ => .refl) (sampleDrop "2000")).2 dropsSlots_sample⟩

/-- Session 5000 is looked up behind the array. -/
theorem registry_index_unsafe :
    (handleAdminRequest sampleAtoi (fun _ => false) (fun _ => Admin.new) (fun _ => true) (sampleDrop "5000")).1 = [5000] ∧
      ¬ 5000 < sessionRegSize := by
  decide +kernel

end Exio
