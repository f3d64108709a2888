import MemDep.Json.Reader
import Mathlib.Data.Nat.Digits.Defs
import Mathlib.Tactic.Common

/-!
# Reading back what was written

The compact text of a value is read as that value (`Json.parse?_text`). The induction is on the
value and speaks of any reader that expects one and of any text that follows: a reader that is fed
the text of a value and then this text ends like one that was given the value as a whole. What
follows a value in a compact text is a mark or nothing, so a number has its end there.

Numbers other than natural ones are kept as they are written and not looked into here.
-/

namespace MemDep

/-! ## Digits -/

theorem digitOf?_digitChar {base d : Nat} (hbase : base ≤ 16) (hd : d < base) :
    digitOf? base (Nat.digitChar d) = some d := by
  have hvalue : ∀ d < 16, digitValue? (Nat.digitChar d) = some d := by decide
  unfold digitOf?
  rw [hvalue d (by omega)]
  simp [hd]

/-- The digits of a number, read from the left onto a number, are put behind its digits. -/
theorem foldlM_toDigits (n : Nat) :
    (Nat.toDigits 10 n).foldlM (fun n c => (digitOf? 10 c).map (10 * n + ·)) 0 = some n := by
  induction n using Nat.strong_induction_on with
  | _ n ih =>
    rw [Nat.toDigits_eq_if (by decide)]
    split
    case isTrue hn =>
      simp [digitOf?_digitChar (by decide) hn]
    case isFalse hn =>
      have hlast : digitOf? 10 (Nat.digitChar (n % 10)) = some (n % 10) :=
        digitOf?_digitChar (by decide) (Nat.mod_lt n (by decide))
      rw [List.foldlM_append, ih (n / 10) (by omega)]
      simp only [Option.bind_eq_bind, Option.bind_some, List.foldlM_cons, hlast, Option.map_some,
        List.foldlM_nil, Option.pure_def, Option.some.injEq]
      omega

theorem natOfDigits?_toDigits (n : Nat) : natOfDigits? 10 (Nat.toDigits 10 n) = some n := by
  unfold natOfDigits?
  split
  case h_1 hnil => exact absurd hnil Nat.toDigits_ne_nil
  case h_2 => exact foldlM_toDigits n

/-- A number that is not zero is written without a zero in front. -/
theorem head?_toDigits_ne {n : Nat} (hn : 0 < n) : (Nat.toDigits 10 n).head? ≠ some '0' := by
  induction n using Nat.strong_induction_on with
  | _ n ih =>
    rw [Nat.toDigits_eq_if (by decide)]
    split
    case isTrue hlt =>
      have hdigit : ∀ d < 10, 0 < d → Nat.digitChar d ≠ '0' := by decide
      simpa using hdigit n hlt hn
    case isFalse hlt =>
      have hne : Nat.toDigits 10 (n / 10) ≠ [] := Nat.toDigits_ne_nil
      obtain ⟨d, ds, hds⟩ := List.exists_cons_of_ne_nil hne
      have hhead := ih (n / 10) (by omega) (by omega)
      rw [hds] at hhead ⊢
      exact hhead

namespace Json

theorem isNatLiteral_toDigits (n : Nat) : isNatLiteral (Nat.toDigits 10 n) = true := by
  have hdigits : (Nat.toDigits 10 n).all Char.isDigit = true := by
    rw [List.all_eq_true]
    intro c hc
    exact Nat.isDigit_of_mem_toDigits (by decide) (by decide) hc
  have hnonempty : (Nat.toDigits 10 n).isEmpty = false := by
    simp [Nat.toDigits_ne_nil]
  have hzero : (Nat.toDigits 10 n).head? ≠ some '0' ∨ (Nat.toDigits 10 n).length = 1 := by
    rcases Nat.eq_zero_or_pos n with rfl | hn
    · exact .inr rfl
    · exact .inl (head?_toDigits_ne hn)
  simp [isNatLiteral, hdigits, hnonempty, hzero]

/-! ## Words and numbers -/

/-- The reader reads some characters and has then come to the end of the text. -/
def result (r : Reader) (cs : List Char) : Option Json := (cs.foldl Reader.feed r).finish

theorem result_append (r : Reader) (cs rest : List Char) :
    result r (cs ++ rest) = result (cs.foldl Reader.feed r) rest := by
  unfold result
  rw [List.foldl_append]

/-- A character that stands in a word or a number. -/
def IsInner (c : Char) : Prop := (isBlank c || isMark c || c = '"') = false

instance (c : Char) : Decidable (IsInner c) :=
  inferInstanceAs (Decidable ((isBlank c || isMark c || c = '"') = false))

theorem isInner_of_isDigit {c : Char} (hc : c.isDigit = true) : IsInner c := by
  have hne : ∀ d : Char, d.isDigit = false → decide (c = d) = false := by
    intro d hd
    rw [decide_eq_false_iff_not]
    rintro rfl
    simp [hd] at hc
  simp [IsInner, isBlank, isMark, hne]

/-- What follows a value in a compact text: a mark, or the end. -/
def Ends (rest : List Char) : Prop := ∀ c cs, rest = c :: cs → isMark c = true

theorem ends_nil : Ends [] := by
  intro c cs h
  simp at h

theorem ends_cons {c : Char} {cs : List Char} (hc : isMark c = true) : Ends (c :: cs) := by
  intro d ds h
  obtain ⟨rfl, _⟩ := List.cons.inj h
  exact hc

theorem foldl_feed_literal {cs : List Char} (hcs : ∀ c ∈ cs, IsInner c) (s : Syntactic)
    (chars : List Char) :
    cs.foldl Reader.feed ⟨.literal chars, s⟩ = ⟨.literal (cs.reverse ++ chars), s⟩ := by
  induction cs generalizing chars with
  | nil => rfl
  | cons c cs ih =>
    obtain ⟨hc, hcs⟩ := List.forall_mem_cons.mp hcs
    have hfeed : Reader.feed ⟨.literal chars, s⟩ c = ⟨.literal (c :: chars), s⟩ := by
      unfold IsInner at hc
      simp only [Reader.feed, hc, Bool.false_eq_true, if_false]
    rw [List.foldl_cons, hfeed, ih hcs]
    simp

/-- At the end of a value it does not matter whether a word is still collected or was handed on. -/
theorem result_literal {chars rest : List Char} (hrest : Ends rest) (s : Syntactic) :
    result ⟨.literal chars, s⟩ rest = result ⟨.between, Reader.endLiteral s chars⟩ rest := by
  cases rest with
  | nil => rfl
  | cons c cs =>
    have hc : isMark c = true := hrest c cs rfl
    have hfeed : Reader.feed ⟨.literal chars, s⟩ c =
        Reader.feed ⟨.between, Reader.endLiteral s chars⟩ c := by
      simp [Reader.feed, hc]
    unfold result
    rw [List.foldl_cons, List.foldl_cons, hfeed]

/-- A word or a number is read as the value that it stands for. -/
theorem result_word {cs rest : List Char} {value : Json} (hne : cs ≠ [])
    (hcs : ∀ c ∈ cs, IsInner c) (hvalue : ofLiteral? cs = some value) (hrest : Ends rest)
    (s : Syntactic) :
    result ⟨.between, s⟩ (cs ++ rest) = result ⟨.between, s.feed (.atom value)⟩ rest := by
  obtain ⟨c, cs, rfl⟩ := List.exists_cons_of_ne_nil hne
  obtain ⟨hc, hcs⟩ := List.forall_mem_cons.mp hcs
  have hfirst : Reader.feed ⟨.between, s⟩ c = ⟨.literal [c], s⟩ := by
    unfold IsInner at hc
    simp only [Bool.or_eq_false_iff, decide_eq_false_iff_not] at hc
    simp [Reader.feed, Reader.feedBetween, hc]
  have hend : Reader.endLiteral s (cs.reverse ++ [c]) = s.feed (.atom value) := by
    unfold Reader.endLiteral
    rw [List.reverse_append, List.reverse_reverse]
    simp only [List.reverse_singleton, List.singleton_append, hvalue]
  rw [result_append, List.foldl_cons, hfirst, foldl_feed_literal hcs, result_literal hrest, hend]

theorem ofLiteral?_toDigits (n : Nat) : ofLiteral? (Nat.toDigits 10 n) = some (.nat n) := by
  have hword : ∀ c cs, c.isDigit = false → Nat.toDigits 10 n ≠ c :: cs := by
    intro c cs hc h
    have hmem : c ∈ Nat.toDigits 10 n := by simp [h]
    rw [Nat.isDigit_of_mem_toDigits (by decide) (by decide) hmem] at hc
    simp at hc
  simp [ofLiteral?, hword, isNatLiteral_toDigits, natOfDigits?_toDigits]

/-! ## Text in quotes -/

theorem foldl_feed_escape (s : Syntactic) (chars : List Char) (c : Char) :
    (escape c).foldl Reader.feed ⟨.quoted chars, s⟩ = ⟨.quoted (c :: chars), s⟩ := by
  unfold escape
  split_ifs with h h h h h h h hcontrol
  · subst h; rfl
  · subst h; rfl
  · subst h; rfl
  · subst h; rfl
  · subst h; rfl
  · subst h; rfl
  · subst h; rfl
  -- a control character is written as its number
  · have hhigh : digitOf? 16 (hexDigit (c.toNat / 16)) = some (c.toNat / 16) :=
      digitOf?_digitChar (by decide) (by omega)
    have hlow : digitOf? 16 (hexDigit (c.toNat % 16)) = some (c.toNat % 16) :=
      digitOf?_digitChar (by decide) (by omega)
    have hzero : digitOf? 16 '0' = some 0 := by decide
    have hfirst : isFirstHalf c.toNat = false := by
      simp only [isFirstHalf, Bool.and_eq_false_iff, decide_eq_false_iff_not]
      omega
    have hsecond : isSecondHalf c.toNat = false := by
      simp only [isSecondHalf, Bool.and_eq_false_iff, decide_eq_false_iff_not]
      omega
    have hnumber : 16 * (c.toNat / 16) + c.toNat % 16 = c.toNat := by omega
    simp [Reader.feed, hzero, hhigh, hlow, Reader.endNumbered, hnumber, hfirst, hsecond]
  · simp_all [Reader.feed]

theorem foldl_feed_quoted (s : Syntactic) (chars cs : List Char) :
    (cs.flatMap escape).foldl Reader.feed ⟨.quoted chars, s⟩ =
      ⟨.quoted (cs.reverse ++ chars), s⟩ := by
  induction cs generalizing chars with
  | nil => rfl
  | cons c cs ih =>
    rw [List.flatMap_cons, List.foldl_append, foldl_feed_escape, ih]
    simp

/-- A text in quotes is read as this text. -/
theorem result_writeString (s : Syntactic) (text : String) (rest : List Char) :
    result ⟨.between, s⟩ (writeString text rest) =
      result ⟨.between, s.feed (.atom (.str text))⟩ rest := by
  have hopen : Reader.feed ⟨.between, s⟩ '"' = ⟨.quoted [], s⟩ := rfl
  have hclose : Reader.feed ⟨.quoted (text.toList.reverse ++ []), s⟩ '"' =
      ⟨.between, s.feed (.atom (.str text))⟩ := by
    simp [Reader.feed]
  unfold result writeString
  rw [List.foldl_cons, hopen, List.foldl_append, foldl_feed_quoted, List.foldl_cons, hclose]

/-! ## Values -/

/-- All numbers of the value are natural. -/
inductive Whole : Json → Prop where
  | null : Whole .null
  | bool (b : Bool) : Whole (.bool b)
  | nat (n : Nat) : Whole (.nat n)
  | str (s : String) : Whole (.str s)
  | arr {items : List Json} (h : ∀ j ∈ items, Whole j) : Whole (.arr items)
  | obj {fields : List (String × Json)} (h : ∀ f ∈ fields, Whole f.2) : Whole (.obj fields)

@[simp] theorem whole_null : Whole .null := .null

@[simp] theorem whole_nat (n : Nat) : Whole (.nat n) := .nat n

@[simp] theorem whole_str (s : String) : Whole (.str s) := .str s

@[simp] theorem whole_arr {items : List Json} : Whole (.arr items) ↔ ∀ j ∈ items, Whole j := by
  constructor
  · rintro (_ | _ | _ | _ | h)
    exact h
  · exact .arr

@[simp] theorem whole_obj {fields : List (String × Json)} :
    Whole (.obj fields) ↔ ∀ f ∈ fields, Whole f.2 := by
  constructor
  · rintro (_ | _ | _ | _ | _ | h)
    exact h
  · exact .obj

theorem result_mark {c : Char} (hc : isMark c = true) (s : Syntactic) (rest : List Char) :
    result ⟨.between, s⟩ (c :: rest) = result ⟨.between, s.feed (.mark c)⟩ rest := by
  have hblank : isBlank c = false := by
    rw [Bool.eq_false_iff]
    intro hblank
    simp only [isBlank, Bool.or_eq_true, decide_eq_true_eq] at hblank
    rcases hblank with ((rfl | rfl) | rfl) | rfl <;> simp [isMark] at hc
  have hfeed : Reader.feed ⟨.between, s⟩ c = ⟨.between, s.feed (.mark c)⟩ := by
    simp [Reader.feed, Reader.feedBetween, hc, hblank]
  unfold result
  rw [List.foldl_cons, hfeed]

/-- A value may come next: the state goes on with any token that starts one. -/
def Syntactic.Expects (s : Syntactic) (stack : List Frame) : Prop :=
  ∀ token, (∀ c, token = .mark c → c ≠ ']') → s.feed token = start stack token

theorem expects_value (stack : List Frame) : (Syntactic.within stack .value).Expects stack :=
  fun _ _ => rfl

theorem expects_valueOrEnd (stack : List Frame) :
    (Syntactic.within stack .valueOrEnd).Expects stack := by
  intro token htoken
  unfold Syntactic.feed
  split <;> simp_all

theorem Syntactic.Expects.atom {s : Syntactic} {stack : List Frame} (h : s.Expects stack)
    (value : Json) : s.feed (.atom value) = put value stack :=
  h (.atom value) (by simp)

/-- The text of a value is read as this value, whatever is open and whatever follows. -/
def ReadsBack (j : Json) : Prop :=
  ∀ (s : Syntactic) (stack : List Frame) (rest : List Char), s.Expects stack → Ends rest →
    result ⟨.between, s⟩ (j.write rest) = result ⟨.between, .put j stack⟩ rest

theorem readsBack_word {j : Json} (cs : List Char) (hne : cs ≠ []) (hcs : ∀ c ∈ cs, IsInner c)
    (hvalue : ofLiteral? cs = some j) (hwrite : ∀ rest, j.write rest = cs ++ rest) :
    ReadsBack j := by
  intro s stack rest hs hrest
  rw [hwrite, result_word hne hcs hvalue hrest, hs.atom]

theorem ends_writeItems (items : List Json) (rest : List Char) : Ends (writeItems items rest) := by
  cases items <;> exact ends_cons (by decide)

theorem ends_writeFields (fields : List (String × Json)) (rest : List Char) :
    Ends (writeFields fields rest) := by
  cases fields <;> exact ends_cons (by decide)

/-- The items after the first one are put in front of those that were read. -/
theorem result_writeItems {items : List Json} (h : ∀ j ∈ items, ReadsBack j) (done : List Json)
    (stack : List Frame) (rest : List Char) :
    result ⟨.between, .within (.arr done :: stack) .commaOrEnd⟩ (writeItems items rest) =
      result ⟨.between, .put (.arr (done.reverse ++ items)) stack⟩ rest := by
  induction items generalizing done with
  | nil =>
    rw [writeItems, result_mark (by decide), List.append_nil]
    rfl
  | cons j items ih =>
    obtain ⟨hj, hitems⟩ := List.forall_mem_cons.mp h
    have hread := hj (.within (.arr done :: stack) .value) _ (writeItems items rest)
      (expects_value _) (ends_writeItems _ _)
    rw [writeItems, result_mark (by decide)]
    refine hread.trans ((ih hitems (j :: done)).trans ?_)
    simp

theorem result_writeField {f : String × Json} (hf : ReadsBack f.2) (done : List (String × Json))
    (stack : List Frame) {s : Syntactic}
    (hs : ∀ name, s.feed (.atom (.str name)) = .within (.field done name :: stack) .colon)
    {rest : List Char} (hrest : Ends rest) :
    result ⟨.between, s⟩ (writeField f rest) =
      result ⟨.between, .within (.obj (f :: done) :: stack) .commaOrEnd⟩ rest := by
  obtain ⟨name, value⟩ := f
  have hread := hf (.within (.field done name :: stack) .value) _ rest (expects_value _) hrest
  rw [writeField, result_writeString, hs, result_mark (by decide)]
  exact hread

theorem result_writeFields {fields : List (String × Json)} (h : ∀ f ∈ fields, ReadsBack f.2)
    (done : List (String × Json)) (stack : List Frame) (rest : List Char) :
    result ⟨.between, .within (.obj done :: stack) .commaOrEnd⟩ (writeFields fields rest) =
      result ⟨.between, .put (.obj (done.reverse ++ fields)) stack⟩ rest := by
  induction fields generalizing done with
  | nil =>
    rw [writeFields, result_mark (by decide), List.append_nil]
    rfl
  | cons f fields ih =>
    obtain ⟨hf, hfields⟩ := List.forall_mem_cons.mp h
    have hread := result_writeField hf done stack (s := .within (.obj done :: stack) .name)
      (fun _ => rfl) (ends_writeFields fields rest)
    rw [writeFields, result_mark (by decide)]
    refine hread.trans ((ih hfields (f :: done)).trans ?_)
    simp

theorem readsBack_arr {items : List Json} (h : ∀ j ∈ items, ReadsBack j) :
    ReadsBack (.arr items) := by
  intro s stack rest hs _
  have hopen : s.feed (.mark '[') = .within (.arr [] :: stack) .valueOrEnd :=
    hs (.mark '[') (by simp)
  cases items with
  | nil =>
    rw [write, result_mark (by decide), hopen, result_mark (by decide)]
    rfl
  | cons j items =>
    obtain ⟨hj, hitems⟩ := List.forall_mem_cons.mp h
    have hread := hj (.within (.arr [] :: stack) .valueOrEnd) _ (writeItems items rest)
      (expects_valueOrEnd _) (ends_writeItems _ _)
    rw [write, result_mark (by decide), hopen]
    exact hread.trans (result_writeItems hitems [j] stack rest)

theorem readsBack_obj {fields : List (String × Json)} (h : ∀ f ∈ fields, ReadsBack f.2) :
    ReadsBack (.obj fields) := by
  intro s stack rest hs _
  have hopen : s.feed (.mark '{') = .within (.obj [] :: stack) .nameOrEnd :=
    hs (.mark '{') (by simp)
  cases fields with
  | nil =>
    rw [write, result_mark (by decide), hopen, result_mark (by decide)]
    rfl
  | cons f fields =>
    obtain ⟨hf, hfields⟩ := List.forall_mem_cons.mp h
    have hread := result_writeField hf [] stack (s := .within (.obj [] :: stack) .nameOrEnd)
      (fun _ => rfl) (ends_writeFields fields rest)
    rw [write, result_mark (by decide), hopen]
    exact hread.trans (result_writeFields hfields [f] stack rest)

theorem readsBack {j : Json} (h : j.Whole) : ReadsBack j := by
  induction h with
  | null =>
    have hinner : ∀ c ∈ ['n', 'u', 'l', 'l'], IsInner c := by simp [IsInner, isBlank, isMark]
    exact readsBack_word _ (by decide) hinner rfl fun _ => rfl
  | bool b =>
    cases b with
    | true =>
      have hinner : ∀ c ∈ ['t', 'r', 'u', 'e'], IsInner c := by simp [IsInner, isBlank, isMark]
      exact readsBack_word _ (by decide) hinner rfl fun _ => rfl
    | false =>
      have hinner : ∀ c ∈ ['f', 'a', 'l', 's', 'e'], IsInner c := by
        simp [IsInner, isBlank, isMark]
      exact readsBack_word _ (by decide) hinner rfl fun _ => rfl
  | nat n =>
    refine readsBack_word _ Nat.toDigits_ne_nil ?_ (ofLiteral?_toDigits n) fun _ => by rw [write]
    intro c hc
    exact isInner_of_isDigit (Nat.isDigit_of_mem_toDigits (by decide) (by decide) hc)
  | str text =>
    intro s stack rest hs _
    rw [write, result_writeString, hs.atom]
  | arr _ ih => exact readsBack_arr ih
  | obj _ ih => exact readsBack_obj ih

/-- The compact text of a value is read as this value. -/
theorem parse?_text {j : Json} (h : j.Whole) : parse? j.text = some j := by
  have hread := readsBack h (.within [] .value) [] [] (expects_value []) ends_nil
  unfold parse? text
  rw [String.toList_ofList]
  exact hread

end Json

end MemDep
