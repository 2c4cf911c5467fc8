import Exio.Sam
/-!
# QName — qualified names and the tokeniser

`tokenize` (`utils.cc`) cuts a C string at every delimiter; `qname::parse` cuts at the dots and keeps no empty part, and
`operator<<` writes the parts with a dot in between (`sam.cc`).  A pointer into a C string is the memory from there on, and
the end of the list stands for the terminating NUL.

A token is the bytes up to the next delimiter or NUL (`upTo`), so that the loop is `List.splitOn` with the empty
tokens kept or dropped (`tokenize_eq`); the laws of joining and splitting then are those of the library (`qname_laws`).
-/
namespace Exio

/-! ## `tokenize` -/

/-- The bytes in front of the first `c` and of the NUL. -/
def upTo (c : UInt8) (src : Bytes) : Bytes := src.takeWhile fun b => b != 0 && b != c

/-- `strchr(src, c) - src`, if there is a `c`. -/
def strchr (src : Bytes) (c : UInt8) : Option Nat :=
  if src.getD (upTo c src).length 0 = c then some (upTo c src).length else none

def strlen (src : Bytes) : Nat := (src.takeWhile (· != 0)).length

/-- The loop of `tokenize`.  Every turn but the last takes a delimiter or more. -/
def tokenizeLoop (delim : UInt8) (wantEmptyTokens : Bool) : Nat → Bytes → List Bytes → List Bytes
  | 0, _, tokens          => tokens
  | fuel + 1, src, tokens =>
    let d := strchr src delim
    let len := d.getD (strlen src)
    let tokens := if len ≠ 0 ∨ wantEmptyTokens then tokens ++ [src.take len] else tokens
    if d.isSome then tokenizeLoop delim wantEmptyTokens fuel (src.drop (len + 1)) tokens else tokens

/-- `tokenize`; `none` is the null pointer. -/
def tokenize (src : Option Bytes) (delim : UInt8) (wantEmptyTokens : Bool) : List Bytes :=
  match src with
  | none     => []
  | some src => if src.headD 0 = 0 then [] else tokenizeLoop delim wantEmptyTokens (src.length + 1) src []

namespace Sam

def dot : UInt8 := 46

/-- `operator<<`; the flag is `it == q.m_vec.begin()`. -/
def streamParts : Bool → List Bytes → Bytes
  | _, []              => []
  | true, part :: q    => part ++ streamParts false q
  | false, part :: q   => dot :: (part ++ streamParts false q)

def qnameToString (q : List Bytes) : Bytes := streamParts true q

def qnameParse (src : Option Bytes) : List Bytes := tokenize src dot false

end Sam

/-! ## A turn of the loop -/

theorem upTo_cons (d b : UInt8) (src : Bytes) : upTo d (b :: src) = if b ≠ 0 ∧ b ≠ d then b :: upTo d src else [] := by
  by_cases h : b ≠ 0 ∧ b ≠ d
  · rw [if_pos h, upTo, List.takeWhile_cons, if_pos (by simpa using h), upTo]
  · rw [if_neg h, upTo, List.takeWhile_cons, if_neg (by simpa using h)]

theorem ne_of_mem_upTo {d b : UInt8} {src : Bytes} (h : b ∈ upTo d src) : b ≠ 0 ∧ b ≠ d := by
  simpa using List.all_eq_true.1 List.all_takeWhile b h

/-- **Where the next token ends**: at a delimiter, or with the string. -/
theorem strchr_cases {d : UInt8} (hd : d ≠ 0) : ∀ (src : Bytes),
    (∃ rest, src = upTo d src ++ d :: rest ∧ strchr src d = some (upTo d src).length) ∨
    (strchr src d = none ∧ strlen src = (upTo d src).length ∧ (0 ∉ src → upTo d src = src))
  | [] => .inr ⟨if_neg (Ne.symm hd), rfl, fun _ => rfl⟩
  | b :: src => by
    rw [strchr, strlen, upTo_cons]
    by_cases hb : b ≠ 0 ∧ b ≠ d
    · have htake : ((b :: src).takeWhile (· != 0)).length = strlen src + 1 := by
        rw [List.takeWhile_cons, if_pos (by simpa using hb.1), List.length_cons, strlen]
      have hget : (b :: src).getD (b :: upTo d src).length 0 = src.getD (upTo d src).length 0 := by
        rw [List.length_cons, List.getD_cons_succ]
      rw [if_pos hb, htake, hget, List.length_cons]
      rcases strchr_cases hd src with ⟨rest, hsrc, hs⟩ | ⟨hs, hlen, hplain⟩
      · rw [strchr] at hs
        split at hs
        · rename_i hc
          exact .inl ⟨rest, congrArg (b :: ·) hsrc, if_pos hc⟩
        · cases hs
      · rw [strchr] at hs
        split at hs
        · cases hs
        · rename_i hc
          refine .inr ⟨if_neg hc, by rw [hlen], fun h0 => ?_⟩
          rw [hplain fun hm => h0 (List.mem_cons_of_mem b hm)]
    · rw [if_neg hb, List.length_nil, List.getD_cons_zero]
      by_cases hbd : b = d
      · exact .inl ⟨src, by rw [hbd]; rfl, if_pos hbd⟩
      · have hb0 : b = 0 := by
          by_contra h0
          exact hb ⟨h0, hbd⟩
        refine .inr ⟨if_neg hbd, ?_, fun h0 => absurd (hb0 ▸ List.mem_cons_self) h0⟩
        rw [List.takeWhile_cons, hb0]
        rfl

/-- Which tokens are captured. -/
def keeps (wantEmptyTokens : Bool) (token : Bytes) : Bool := wantEmptyTokens || !token.isEmpty

section

variable {d : UInt8} (hd : d ≠ 0) (want : Bool)
include hd

/-- **One turn**: the token is captured if it is wanted, and the loop goes on behind the delimiter or ends. -/
theorem tokenizeLoop_turn (fuel : Nat) (src : Bytes) (tokens : List Bytes) :
    (∃ rest, src = upTo d src ++ d :: rest ∧ tokenizeLoop d want (fuel + 1) src tokens =
      tokenizeLoop d want fuel rest (tokens ++ [upTo d src].filter (keeps want))) ∨
    ((0 ∉ src → upTo d src = src) ∧
      tokenizeLoop d want (fuel + 1) src tokens = tokens ++ [upTo d src].filter (keeps want)) := by
  have hcapture : ∀ n (t : Bytes), t.length = n →
      (if n ≠ 0 ∨ want = true then tokens ++ [t] else tokens) = tokens ++ [t].filter (keeps want) := by
    rintro n t rfl
    by_cases hk : keeps want t = true
    · rw [List.filter_cons_of_pos hk, if_pos]
      · rfl
      · simpa [keeps, or_comm] using hk
    · rw [List.filter_cons_of_neg hk, if_neg]
      · simp
      · simpa [keeps, and_comm] using hk
  have htake : src.take (upTo d src).length = upTo d src :=
    List.prefix_iff_eq_take.1 (List.takeWhile_prefix _) |>.symm
  rcases strchr_cases hd src with ⟨rest, hsrc, hs⟩ | ⟨hs, hlen, hplain⟩
  · refine .inl ⟨rest, hsrc, ?_⟩
    have hdrop : src.drop ((upTo d src).length + 1) = rest := by
      generalize upTo d src = token at hsrc
      rw [hsrc, ← List.drop_drop, List.drop_left]
      rfl
    rw [tokenizeLoop, hs]
    simp only [Option.getD_some, Option.isSome_some, if_true, htake, hcapture _ _ rfl, hdrop]
  · refine .inr ⟨hplain, ?_⟩
    rw [tokenizeLoop, hs]
    simp only [Option.getD_none, hlen, htake, hcapture _ _ rfl]
    rfl

/-- **The loop is the library's split**, without the tokens that are not wanted. -/
theorem tokenizeLoop_eq : ∀ (fuel : Nat) (src : Bytes) (tokens : List Bytes), 0 ∉ src → src.length < fuel →
    tokenizeLoop d want fuel src tokens = tokens ++ (src.splitOn d).filter (keeps want)
  | 0, _, _, _, hf => by omega
  | fuel + 1, src, tokens, h0, hf => by
    have hne : d ∉ upTo d src := fun hm => (ne_of_mem_upTo hm).2 rfl
    rcases tokenizeLoop_turn hd want fuel src tokens with ⟨rest, hsrc, hturn⟩ | ⟨hplain, hturn⟩
    · have hlen := congrArg List.length hsrc
      rw [List.length_append, List.length_cons] at hlen
      have hrest : 0 ∉ rest := fun hm => h0 (by rw [hsrc]; simp [hm])
      have hsplit : src.splitOn d = upTo d src :: rest.splitOn d := by
        generalize upTo d src = token at hsrc hne
        rw [hsrc]
        exact List.splitOn_append_cons_self_of_not_mem hne rest
      rw [hturn, tokenizeLoop_eq fuel rest _ hrest (by omega), hsplit, List.append_assoc, ← List.filter_append]
      rfl
    · rw [hplain h0] at hne hturn
      rw [hturn, List.splitOn_eq_singleton hne]

/-- **What a token is made of**, whatever the memory behind the string holds. -/
theorem tokenizeLoop_tokens : ∀ (fuel : Nat) (src : Bytes) (tokens : List Bytes),
    ∀ t ∈ tokenizeLoop d want fuel src tokens, t ∈ tokens ∨ (keeps want t = true ∧ ∀ b ∈ t, b ≠ 0 ∧ b ≠ d)
  | 0, _, _, _, ht => .inl ht
  | fuel + 1, src, tokens, t, ht => by
    have hnew : t ∈ tokens ++ [upTo d src].filter (keeps want) →
        t ∈ tokens ∨ (keeps want t = true ∧ ∀ b ∈ t, b ≠ 0 ∧ b ≠ d) := by
      intro hm
      rcases List.mem_append.1 hm with hm | hm
      · exact .inl hm
      · obtain ⟨hm, hk⟩ := List.mem_filter.1 hm
        cases List.mem_singleton.1 hm
        exact .inr ⟨hk, fun b hb => ne_of_mem_upTo hb⟩
    rcases tokenizeLoop_turn hd want fuel src tokens with ⟨rest, -, hturn⟩ | ⟨-, hturn⟩
    · rw [hturn] at ht
      rcases tokenizeLoop_tokens fuel rest _ t ht with hm | hm
      · exact hnew hm
      · exact .inr hm
    · rw [hturn] at ht
      exact hnew ht

theorem tokenize_eq {src : Bytes} (h0 : 0 ∉ src) :
    tokenize (some src) d want = if src = [] then [] else (src.splitOn d).filter (keeps want) := by
  cases src with
  | nil => rfl
  | cons b src =>
    have hb : ¬ b = 0 := fun h => h0 (h ▸ List.mem_cons_self)
    rw [tokenize, List.headD_cons, if_neg hb, tokenizeLoop_eq hd want _ _ _ h0 (Nat.lt_succ_self _),
      if_neg (List.cons_ne_nil b src)]
    rfl

end

namespace Sam

/-! ## Qualified names -/

/-- `operator<<` joins the parts. -/
theorem qnameToString_eq : ∀ (q : List Bytes), qnameToString q = [dot].intercalate q
  | []           => rfl
  | [part]       => by simp [qnameToString, streamParts]
  | part :: p :: q => by
    have ih := qnameToString_eq (p :: q)
    rw [List.intercalate_cons_cons, ← ih]
    simp [qnameToString, streamParts]

/-- A part that survives the way through a string. -/
def PlainPart (part : Bytes) : Prop := part ≠ [] ∧ dot ∉ part ∧ 0 ∉ part

theorem dot_ne_zero : dot ≠ 0 := by decide

theorem zero_not_mem_streamParts : ∀ (first : Bool) (q : List Bytes), (∀ part ∈ q, PlainPart part) →
    0 ∉ streamParts first q
  | _, [], _ => List.not_mem_nil
  | first, part :: q, h => by
    obtain ⟨hpart, hq⟩ := List.forall_mem_cons.1 h
    have ih := zero_not_mem_streamParts false q hq
    have hdot := Ne.symm dot_ne_zero
    cases first <;> simp [streamParts, hpart.2.2, ih, hdot]

/-- **A name is parsed from its own string.** -/
theorem qnameParse_toString {q : List Bytes} (h : ∀ part ∈ q, PlainPart part) :
    qnameParse (some (qnameToString q)) = q := by
  cases q with
  | nil => rfl
  | cons part q =>
    have hne : qnameToString (part :: q) ≠ [] := by
      simp [qnameToString, streamParts, (h part List.mem_cons_self).1]
    have hsplit : (qnameToString (part :: q)).splitOn dot = part :: q := by
      rw [qnameToString_eq]
      exact List.splitOn_intercalate dot (fun p hp => (h p hp).2.1) (List.cons_ne_nil part q)
    have hzero : 0 ∉ qnameToString (part :: q) := zero_not_mem_streamParts true _ h
    rw [qnameParse, tokenize_eq dot_ne_zero false hzero, if_neg hne, hsplit, List.filter_eq_self]
    intro p hp
    simpa [keeps] using (h p hp).1

theorem plainPart_of_mem_qnameParse {src : Option Bytes} {part : Bytes} (h : part ∈ qnameParse src) : PlainPart part := by
  unfold qnameParse tokenize at h
  split at h
  · cases h
  split at h
  · cases h
  rcases tokenizeLoop_tokens dot_ne_zero false _ _ _ part h with hm | ⟨hk, hplain⟩
  · cases hm
  · exact ⟨by simpa [keeps] using hk, fun hm => (hplain dot hm).2 rfl, fun hm => (hplain 0 hm).1 rfl⟩

/-- **Qualified names and the tokeniser**: the tokens joined are the string, the tokens without the empty ones are those
that are not wanted empty, and parsing and writing undo each other. -/
theorem qname_laws :
    (∀ (s : Bytes) (d : UInt8), 0 ∉ s → d ≠ 0 → s ≠ [] → [d].intercalate (tokenize (some s) d true) = s) ∧
    (∀ (s : Bytes) (d : UInt8), 0 ∉ s → d ≠ 0 →
      tokenize (some s) d false = (tokenize (some s) d true).filter (fun token => !token.isEmpty)) ∧
    (∀ q : List Bytes, (∀ part ∈ q, part ≠ [] ∧ dot ∉ part ∧ 0 ∉ part) → qnameParse (some (qnameToString q)) = q) ∧
    ∀ s : Option Bytes, qnameParse (some (qnameToString (qnameParse s))) = qnameParse s := by
  refine ⟨fun s d h0 hd hs => ?_, fun s d h0 hd => ?_, fun q h => qnameParse_toString h, fun s => ?_⟩
  · have hall : (s.splitOn d).filter (keeps true) = s.splitOn d := List.filter_eq_self.2 fun _ _ => rfl
    rw [tokenize_eq hd true h0, if_neg hs, hall, List.intercalate_splitOn]
  · rw [tokenize_eq hd false h0, tokenize_eq hd true h0]
    split
    · rfl
    · rw [List.filter_filter]
      refine List.filter_congr fun token _ => ?_
      simp [keeps]
  · exact qnameParse_toString fun part hpart => plainPart_of_mem_qnameParse hpart

/-- Leading, trailing and repeated delimiters; a name of two parts; a string cut short by a NUL. -/
theorem qname_laws_sample :
    [44].intercalate (tokenize (some (ascii ",a,,b,")) 44 true) = ascii ",a,,b," ∧
    tokenize (some (ascii ",a,,b,")) 44 false = [ascii "a", ascii "b"] ∧
    qnameParse (some (qnameToString [ascii "head", ascii "command"])) = [ascii "head", ascii "command"] ∧
    qnameParse (some (qnameToString (qnameParse (some (ascii "..a.b\x00.c"))))) = qnameParse (some (ascii "..a.b\x00.c")) := by
  obtain ⟨hjoin, hdrop, hparse, hagain⟩ := qname_laws
  refine ⟨hjoin _ 44 (by decide) (by decide) (by decide), ?_, hparse _ (by decide), hagain _⟩
  rw [hdrop _ 44 (by decide) (by decide)]
  decide

end Sam
end Exio
