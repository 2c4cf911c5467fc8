import Exio.AdminClient
/-!
# AdminArguments — how long `init_args_ptrs` runs

`args_COUNT` is text from the wire: `atoi` makes any `int` of it, and a negative one becomes a `size_t` close to `2 ^ 64`.
The count does not bound the loop that collects the arguments.  What ends it is the body: every turn but the last finds
another field, and the names `args_0`, `args_1`, ... are distinct (`argsLoop_stops`).

`argsLoop` is the loop with a limit on its turns.  **One turn more than the body has fields is always enough**, and what it
then yields is what the count says (`initArgs_bounded`).
-/
namespace Exio

open Sam

/-! ## The loop with a limit -/

/-- The loop of `init_args_ptrs` from index `i` on; `none` if it is still running after `turns` turns. -/
def argsLoop (body : List TxItem) (argc : Nat) : Nat → Nat → List Bytes → Option (Except AdminFailure (List Bytes))
  | 0, i, args         => if i < argc then none else some (.ok args)
  | turns + 1, i, args =>
    if i < argc then
      match findField (argName i) body with
      | none   => some (.error (missingField (argName i)))
      | some v => argsLoop body argc turns (i + 1) (args ++ [v])
    else some (.ok args)

/-- `init_args_ptrs` with a limit on the turns of its loop. -/
def initArgsWithin (atoi : Bytes → CInt) (turns : Nat) (m : TxMessage) : Option (Except AdminFailure (List Bytes)) :=
  match findChild Id.head m.root, findChild Id.body m.root with
  | none, _           => some (.error (missingField Id.head))
  | some _, none      => some (.error (missingField Id.body))
  | some _, some body =>
    match findField Id.argsCount body with
    | none   => some (.ok [])
    | some c => argsLoop body (Word.ofInt 64 (atoi c).val) turns 0 []

/-- The number of fields in the body. -/
def bodyFields (m : TxMessage) : Nat := ((findChild Id.body m.root).map fun body => (fieldNames body).length).getD 0

/-- `args_COUNT` as the loop takes it; without the field there are no arguments. -/
def argsCountOf (atoi : Bytes → CInt) (m : TxMessage) : Nat :=
  (((findChild Id.body m.root).bind (findField Id.argsCount)).map fun c => Word.ofInt 64 (atoi c).val).getD 0

/-! ## The loop ends -/

theorem mem_fieldNames_of_findField {f v : Bytes} {is : List TxItem} (h : findField f is = some v) : f ∈ fieldNames is := by
  by_contra hm
  rw [(findField_eq_none_iff f is).2 hm] at h
  cases h

/-- **A turn per field, and one for the gap.** -/
theorem argsLoop_stops {body : List TxItem} (argc : Nat) : ∀ (turns i : Nat) (args : List Bytes),
    (∀ j, j < i → argName j ∈ fieldNames body) → (fieldNames body).length < turns + i →
    ∃ r, argsLoop body argc turns i args = some r
  | 0, i, args, hfound, hturns => by
    -- the first `i` names are there, and are more than there are fields
    have := Numbered.le_length_of_names argName_injective hfound
    omega
  | turns + 1, i, args, hfound, hturns => by
    rw [argsLoop]
    split
    · cases hf : findField (argName i) body with
      | none => exact ⟨_, rfl⟩
      | some v =>
        refine argsLoop_stops argc turns (i + 1) (args ++ [v]) (fun j hj => ?_) (by omega)
        rcases Nat.lt_succ_iff_lt_or_eq.1 hj with hj | rfl
        · exact hfound j hj
        · exact mem_fieldNames_of_findField hf
    · exact ⟨_, rfl⟩

/-- **A loop that ended has done what the unlimited one does.** -/
theorem argsLoop_eq {body : List TxItem} {argc : Nat} {r : Except AdminFailure (List Bytes)} : ∀ (turns i : Nat)
    (args : List Bytes), argsLoop body argc turns i args = some r →
    r = (collectArgs body (argc - i) i).map (args ++ ·)
  | turns, i, args, h => by
    by_cases hi : i < argc
    · obtain ⟨n, hn⟩ : ∃ n, argc - i = n + 1 := ⟨argc - i - 1, by omega⟩
      cases turns with
      | zero =>
        rw [argsLoop, if_pos hi] at h
        cases h
      | succ turns =>
        rw [argsLoop, if_pos hi] at h
        rw [hn, collectArgs]
        cases hf : findField (argName i) body with
        | none =>
          rw [hf] at h
          cases h
          rw [argName] at hf
          rw [hf]
          rfl
        | some v =>
          rw [hf] at h
          have ih := argsLoop_eq turns (i + 1) (args ++ [v]) h
          rw [show argc - (i + 1) = n by omega] at ih
          rw [argName] at hf
          rw [hf, ih]
          cases collectArgs body n (i + 1) with
          | error e => rfl
          | ok vs => simp [Except.map]
    · rw [show argc - i = 0 by omega]
      cases turns <;> (rw [argsLoop, if_neg hi] at h; cases h; simp [collectArgs, Except.map])

/-- **What the loop yields**: as many values as it was to collect, each the field of its number. -/
theorem collectArgs_of_ok {body : List TxItem} : ∀ (n i : Nat) {args : List Bytes}, collectArgs body n i = .ok args →
    args.length = n ∧ ∀ j, j < n → args[j]? = findField (argName (i + j)) body
  | 0, i, args, h => by
    cases h
    exact ⟨rfl, fun j hj => by omega⟩
  | n + 1, i, args, h => by
    rw [collectArgs] at h
    split at h
    · cases h
    rename_i v hv
    cases hrest : collectArgs body n (i + 1) with
    | error e =>
      rw [hrest] at h
      cases h
    | ok vs =>
      rw [hrest] at h
      cases h
      obtain ⟨hlen, hvs⟩ := collectArgs_of_ok n (i + 1) hrest
      refine ⟨by rw [List.length_cons, hlen], fun j hj => ?_⟩
      cases j with
      | zero => exact hv.symm
      | succ j =>
        rw [List.getElem?_cons_succ, hvs j (by omega), show i + 1 + j = i + (j + 1) by omega]

/-- **The arguments of any request are collected in bounded time.**  Whatever `atoi` makes of `args_COUNT`, the loop of
`init_args_ptrs` ends after one turn more than the body has fields, at the latest; it throws, or yields as many arguments
as the count says, and the one of number `i` is the field `args_i`. -/
theorem initArgs_bounded (atoi : Bytes → CInt) (m : TxMessage) :
    initArgsWithin atoi (bodyFields m + 1) m = some (initArgs atoi m) ∧
    ((∃ e, initArgs atoi m = .error e) ∨
      ∃ args, initArgs atoi m = .ok args ∧ args.length = argsCountOf atoi m ∧
        ∀ i, i < args.length → args[i]? = (findChild Id.body m.root).bind (findField (argName i))) := by
  unfold initArgsWithin initArgs bodyFields argsCountOf
  cases findChild Id.head m.root with
  | none => exact ⟨rfl, .inl ⟨_, rfl⟩⟩
  | some head =>
    cases findChild Id.body m.root with
    | none => exact ⟨rfl, .inl ⟨_, rfl⟩⟩
    | some body =>
      simp only [Option.map_some, Option.getD_some, Option.bind_some]
      cases findField Id.argsCount body with
      | none => exact ⟨rfl, .inr ⟨[], rfl, rfl, fun i hi => by cases hi⟩⟩
      | some c =>
        simp only [Option.map_some, Option.getD_some]
        generalize Word.ofInt 64 (atoi c).val = argc
        constructor
        · obtain ⟨r, hr⟩ := argsLoop_stops argc ((fieldNames body).length + 1) 0 [] (fun j hj => by cases hj)
            (Nat.lt_succ_self (fieldNames body).length)
          rw [hr, argsLoop_eq _ _ _ hr]
          cases collectArgs body argc 0 with
          | error e => rfl
          | ok args => rfl
        · cases hargs : collectArgs body argc 0 with
          | error e => exact .inl ⟨e, rfl⟩
          | ok args =>
            obtain ⟨hlen, hget⟩ := collectArgs_of_ok argc 0 hargs
            refine .inr ⟨args, rfl, hlen, fun i hi => ?_⟩
            rw [hget i (by omega), Nat.zero_add]

/-- A count of `-1` over two arguments: three turns, and the third finds the gap. -/
example : initArgsWithin (fun _ => ⟨-1, by decide, by decide⟩) 3
    ⟨Id.msgRequest, putFieldQ [] Id.qnCommand (modifyChild [] Id.body fun body => addArguments body [ascii "a", ascii "b"])⟩ =
      some (.error (missingField (argName 2))) := by decide

end Exio
