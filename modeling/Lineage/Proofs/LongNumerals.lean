import Lineage.Json.Reader
import Mathlib.Data.List.Infix
import Mathlib.Data.List.TakeWhile

/-!
# Long numerals

The reader has one fault that is not about the grammar: an integer of too many digits. It is met
only where the text holds that many digits in a row. What each scanner leaves is an end of what it
was given, so digits found in the rest stand in the whole text too.
-/

namespace Lineage.Json

/-! ## What a scanner keeps to -/

/-- A row of `n` digits stands in a text, and an integer may not have that many. -/
def LongRun (n : Nat) (s : List Char) : Prop :=
  Text.maxDigits < n ∧ ∃ digits, digits <:+: s ∧ (∀ c ∈ digits, c.isDigit) ∧ digits.length = n

theorem LongRun.mono {n : Nat} {s t : List Char} (h : LongRun n s) (ht : s <:+: t) :
    LongRun n t := by
  obtain ⟨hn, digits, hd, hall, hlen⟩ := h
  exact ⟨hn, digits, hd.trans ht, hall, hlen⟩

variable {α β : Type}

/-- What a scanner leaves is an end of its text, and a numeral it refuses stands in that text. -/
def Keeps (s : List Char) : Except Stop (α × Rest s) → Prop
  | .ok (_, r) => r.1 <:+ s
  | .error (.numeralTooLong n) => LongRun n s
  | .error (.malformed _ _) => True

theorem Keeps.error {s t : List Char} (ht : t <:+ s) {stop : Stop}
    (h : Keeps t (.error stop : Except Stop (α × Rest t))) :
    Keeps s (.error stop : Except Stop (β × Rest s)) := by
  cases stop with
  | malformed => trivial
  | numeralTooLong n => exact LongRun.mono h ht.isInfix

theorem Keeps.bind {s t : List Char} (ht : t <:+ s) {x : Except Stop (α × Rest t)}
    (hx : Keeps t x) {f : α × Rest t → Except Stop (β × Rest s)}
    (hf : ∀ a r, r.1 <:+ t → Keeps s (f (a, r))) : Keeps s (x >>= f) := by
  cases x with
  | error stop => exact Keeps.error ht hx
  | ok read => exact hf read.1 read.2 hx

/-! ## White space -/

theorem skipGap_suffix (s : List Char) : (skipGap s).1 <:+ s :=
  List.dropWhile_suffix _

theorem suffix_of_skipGap {c : Char} {s t : List Char} (h : (skipGap s).1 = c :: t) : t <:+ s :=
  (List.suffix_cons c t).trans (h ▸ skipGap_suffix s)

theorem length_lt_of_skipGap {c : Char} {s t : List Char} (h : (skipGap s).1 = c :: t) :
    (skipGap t).1.length < s.length := by
  have hs := (skipGap s).2
  rw [h, List.length_cons] at hs
  exact Nat.lt_of_le_of_lt (skipGap t).2 hs

/-! ## Strings -/

theorem keeps_stringUnits (opening s : List Char) : Keeps s (stringUnits opening s) := by
  fun_induction stringUnits opening s with
  | case1 => trivial
  | case2 r => exact List.suffix_cons _ r
  | case3 => trivial
  | case4 a b c d e t n _ ih =>
    have ht := List.suffix_append ['\\', 'u', a, b, c, d] (e :: t)
    exact Keeps.bind ht ih fun _ _ hr => hr.trans ht
  | case5 => trivial
  | case6 => trivial
  | case7 x t _ c _ ih =>
    have ht := List.suffix_append ['\\', x] t
    exact Keeps.bind ht ih fun _ _ hr => hr.trans ht
  | case8 => trivial
  | case9 => trivial
  | case10 c t _ _ _ _ _ ih =>
    have ht := List.suffix_cons c t
    exact Keeps.bind ht ih fun _ _ hr => hr.trans ht

theorem keeps_stringText (opening s : List Char) : Keeps s (stringText opening s) :=
  Keeps.bind List.suffix_rfl (keeps_stringUnits opening s) fun _ _ hr => hr

/-! ## Numbers -/

theorem wholePart?_eq_some {s whole : List Char} {r : Rest s}
    (h : wholePart? s = some (whole, r)) : s = whole ++ r.1 ∧ ∀ c ∈ whole, c.isDigit := by
  rw [wholePart?.eq_def] at h
  split at h
  · cases h
  · split at h
    · next hc =>
      cases h
      simp only [beq_iff_eq] at hc
      simp [hc]
    · split at h
      · next c r _ hc =>
        cases h
        refine ⟨by simp, fun a ha => ?_⟩
        obtain rfl | ha := List.mem_cons.mp ha
        · exact hc
        · exact List.mem_takeWhile_imp ha
      · cases h

theorem wholePart?_digits {digits : List Char} (hall : ∀ c ∈ digits, c.isDigit)
    (hne : digits ≠ []) (hzero : digits.head? ≠ some '0') :
    ∃ r, wholePart? digits = some (digits, r) ∧ r.1 = [] := by
  obtain ⟨c, ds, rfl⟩ := List.exists_cons_of_ne_nil hne
  have hc : ¬ (c == '0') = true := by simpa using hzero
  have hds : ds.takeWhile Char.isDigit = ds :=
    List.takeWhile_eq_self_iff.mpr fun a ha => hall a (List.mem_cons_of_mem _ ha)
  have hrest : ds.dropWhile Char.isDigit = [] :=
    List.dropWhile_eq_nil_iff.mpr fun a ha => hall a (List.mem_cons_of_mem _ ha)
  rw [wholePart?.eq_def]
  simp only [if_neg hc, if_pos (hall c List.mem_cons_self), hds]
  exact ⟨_, rfl, hrest⟩

theorem Numeral.value_eq_error {n : Numeral} {stop : Stop} (h : n.value = .error stop) :
    stop = .numeralTooLong n.whole.length ∧ Text.maxDigits < n.whole.length := by
  rw [Numeral.value] at h
  split at h
  · split at h
    · next hlen =>
      cases h
      exact ⟨rfl, hlen⟩
    · cases h
  · cases h

theorem fractionPart_suffix (s : List Char) : (fractionPart s).2.1 <:+ s := by
  rw [fractionPart.eq_def]
  split
  · next r =>
    split
    · exact List.suffix_rfl
    · exact (List.dropWhile_suffix _).trans (List.suffix_cons _ r)
  · exact List.suffix_rfl

theorem exponentPart_suffix (s : List Char) : (exponentPart s).2.1 <:+ s := by
  rw [exponentPart.eq_def]
  split
  · exact List.suffix_rfl
  · next e r =>
    have hd : r.drop 1 <:+ e :: r := (List.drop_suffix 1 r).trans (List.suffix_cons e r)
    simp only
    split <;> split
    · exact (List.dropWhile_suffix _).trans hd
    · exact List.suffix_rfl
    · exact (List.dropWhile_suffix _).trans (List.suffix_cons e r)
    · exact List.suffix_rfl

theorem keeps_unsigned (negative : Bool) (start s : List Char) :
    Keeps s (unsigned negative start s) := by
  rw [unsigned]
  split
  · trivial
  · next whole r hw =>
    obtain ⟨hs, hdigits⟩ := wholePart?_eq_some hw
    simp only
    split
    · next stop hv =>
      obtain ⟨rfl, hlen⟩ := Numeral.value_eq_error hv
      exact ⟨hlen, whole, ⟨[], r.1, hs.symm⟩, hdigits, rfl⟩
    · exact (exponentPart_suffix _).trans ((fractionPart_suffix r.1).trans ⟨whole, hs.symm⟩)

/-! ## Values -/

theorem keeps_scalar (s : List Char) : Keeps s (scalar s) := by
  rw [scalar.eq_def]
  split
  · next r =>
    exact Keeps.bind (List.suffix_cons _ r) (keeps_stringText _ r)
      fun _ _ hr => hr.trans (List.suffix_cons _ r)
  · exact List.suffix_append ['n', 'u', 'l', 'l'] _
  · exact List.suffix_append ['t', 'r', 'u', 'e'] _
  · exact List.suffix_append ['f', 'a', 'l', 's', 'e'] _
  · exact List.suffix_append ['N', 'a', 'N'] _
  · exact List.suffix_append ['I', 'n', 'f', 'i', 'n', 'i', 't', 'y'] _
  · exact List.suffix_append ['-', 'I', 'n', 'f', 'i', 'n', 'i', 't', 'y'] _
  · next r _ =>
    have hk := keeps_unsigned true ('-' :: r) r
    split
    · next stop h => exact Keeps.error (List.suffix_cons _ r) (h ▸ hk)
    · next v r' h =>
      rw [h] at hk
      exact List.IsSuffix.trans hk (List.suffix_cons _ r)
  · exact keeps_unsigned false s s

theorem keeps_memberName (s : List Char) : Keeps s (memberName s) := by
  rw [memberName.eq_def]
  split
  · next r =>
    refine Keeps.bind (List.suffix_cons _ r) (keeps_stringText _ r) fun name r' hr => ?_
    have hr' := hr.trans (List.suffix_cons '"' r)
    simp only
    split
    · next t h => exact (skipGap_suffix t).trans ((suffix_of_skipGap h).trans hr')
    · trivial
  · trivial

theorem keeps_value {s : List Char} (he : ∀ t, t.length < s.length → Keeps t (elements t))
    (hm : ∀ t, t.length < s.length → Keeps t (members t)) : Keeps s (value s) := by
  rw [value.eq_def]
  split
  · next r =>
    have hr := (skipGap_suffix r).trans (List.suffix_cons '[' r)
    simp only
    split
    · next t h => exact (suffix_of_skipGap h).trans (List.suffix_cons _ r)
    · exact Keeps.bind hr (he _ (Nat.lt_succ_of_le (skipGap r).2)) fun _ _ ht => ht.trans hr
  · next r =>
    have hr := (skipGap_suffix r).trans (List.suffix_cons '\x7b' r)
    simp only
    split
    · next t h => exact (suffix_of_skipGap h).trans (List.suffix_cons _ r)
    · exact Keeps.bind hr (hm _ (Nat.lt_succ_of_le (skipGap r).2)) fun _ _ ht => ht.trans hr
  · exact keeps_scalar s

theorem keeps_elements {s : List Char} (hv : Keeps s (value s))
    (he : ∀ t, t.length < s.length → Keeps t (elements t)) : Keeps s (elements s) := by
  rw [elements.eq_def]
  refine Keeps.bind List.suffix_rfl hv fun v r hr => ?_
  simp only
  split
  · next t h => exact (suffix_of_skipGap h).trans hr
  · next t h =>
    have ht := (skipGap_suffix t).trans ((suffix_of_skipGap h).trans hr)
    exact Keeps.bind ht (he _ ((length_lt_of_skipGap h).trans r.2)) fun _ _ hr' => hr'.trans ht
  · trivial

theorem keeps_members {s : List Char} (hv : ∀ t, t.length < s.length → Keeps t (value t))
    (hm : ∀ t, t.length < s.length → Keeps t (members t)) : Keeps s (members s) := by
  rw [members.eq_def]
  refine Keeps.bind List.suffix_rfl (keeps_memberName s) fun name n hn => ?_
  refine Keeps.bind hn (hv n.1 n.2) fun v r hr => ?_
  simp only
  split
  · next t h => exact (suffix_of_skipGap h).trans (hr.trans hn)
  · next t h =>
    have ht := (skipGap_suffix t).trans ((suffix_of_skipGap h).trans (hr.trans hn))
    exact Keeps.bind ht (hm _ ((length_lt_of_skipGap h).trans (r.2.trans n.2)))
      fun _ _ hr' => hr'.trans ht
  · trivial

/-- Values, items and members call each other on shorter texts only. -/
theorem nested_induction {V E M : List Char → Prop}
    (hv : ∀ s, (∀ t, t.length < s.length → E t) → (∀ t, t.length < s.length → M t) → V s)
    (he : ∀ s, V s → (∀ t, t.length < s.length → E t) → E s)
    (hm : ∀ s, (∀ t, t.length < s.length → V t) → (∀ t, t.length < s.length → M t) → M s) :
    ∀ s, V s ∧ E s ∧ M s := by
  have hbelow : ∀ n s, s.length < n → V s ∧ E s ∧ M s := by
    intro n
    induction n with
    | zero => exact fun s hs => absurd hs (Nat.not_lt_zero _)
    | succ n ih =>
      intro s hs
      have shorter {t : List Char} (ht : t.length < s.length) := ih t (by omega)
      have hvalue := hv s (fun t ht => (shorter ht).2.1) fun t ht => (shorter ht).2.2
      exact ⟨hvalue, he s hvalue fun t ht => (shorter ht).2.1,
        hm s (fun t ht => (shorter ht).1) fun t ht => (shorter ht).2.2⟩
  exact fun s => hbelow (s.length + 1) s (Nat.lt_succ_self _)

theorem keeps_nested (s : List Char) :
    Keeps s (value s) ∧ Keeps s (elements s) ∧ Keeps s (members s) :=
  nested_induction (fun _ => keeps_value) (fun _ => keeps_elements) (fun _ => keeps_members) s

/-! ## Documents -/

theorem document_eq_error {text : List Char} {digits : Nat}
    (h : document text = .error (.numeralTooLong digits)) : LongRun digits text := by
  rw [document.eq_def] at h
  split at h
  · cases h
  · have hk := (keeps_nested (skipGap text).1).1
    cases hv : value (skipGap text).1 with
    | error stop =>
      rw [hv] at h hk
      cases h
      exact LongRun.mono hk (skipGap_suffix text).isInfix
    | ok read =>
      -- only the end of the text is looked at behind a value
      rw [hv] at h
      simp only [bind, Except.bind] at h
      split at h
      · cases h
      · cases h

/-- A numeral is refused for its length only if a row of that many digits stands in the text. -/
theorem longRun_of_read {text : String} {digits : Nat}
    (h : read text = .error (.numeralTooLong digits)) : LongRun digits text.toList := by
  rw [read] at h
  split at h
  · cases h
  · next hd =>
    cases h
    exact document_eq_error hd
  · cases h

/-! ## A numeral alone -/

theorem scalar_eq_unsigned {s : List Char} {c : Char} (hs : s.head? = some c) (hc : c.isDigit) :
    scalar s = unsigned false s s := by
  rw [scalar.eq_def]
  split
  case h_9 => rfl
  all_goals
    cases hs
    exact absurd hc (by decide)

theorem value_eq_unsigned {s : List Char} {c : Char} (hs : s.head? = some c) (hc : c.isDigit) :
    value s = unsigned false s s := by
  rw [value.eq_def]
  split
  case h_3 => exact scalar_eq_unsigned hs hc
  all_goals
    cases hs
    exact absurd hc (by decide)

theorem skipGap_of_digit {s : List Char} {c : Char} (hs : s.head? = some c) (hc : c.isDigit) :
    (skipGap s).1 = s := by
  obtain ⟨s, rfl⟩ := List.head?_eq_some_iff.mp hs
  have hgap : isGap c = false := by
    rw [Bool.eq_false_iff]
    intro h
    simp only [isGap, Bool.or_eq_true, beq_iff_eq] at h
    obtain ((rfl | rfl) | rfl) | rfl := h <;> exact absurd hc (by decide)
  simp [skipGap, hgap]

/-- A text that is one integer of too many digits is refused for its length. -/
theorem read_digits {digits : List Char} (hall : ∀ c ∈ digits, c.isDigit)
    (hzero : digits.head? ≠ some '0') (hlen : Text.maxDigits < digits.length) :
    read (String.ofList digits) = .error (.numeralTooLong digits.length) := by
  have hne : digits ≠ [] := List.ne_nil_of_length_pos (by omega)
  obtain ⟨⟨_, _⟩, hw, rfl⟩ := wholePart?_digits hall hne hzero
  obtain ⟨c, hc⟩ : ∃ c, digits.head? = some c := ⟨_, List.head?_eq_some_head hne⟩
  have hd := hall c (List.mem_of_head? hc)
  have hu : unsigned false digits digits = .error (.numeralTooLong digits.length) := by
    rw [unsigned, hw]
    simp only [fractionPart, exponentPart, Numeral.value, if_pos hlen]
  have hv : value (skipGap digits).1 = .error (.numeralTooLong digits.length) := by
    have hgap := skipGap_of_digit hc hd
    generalize (skipGap digits).1 = t at hgap ⊢
    subst hgap
    rw [value_eq_unsigned hc hd, hu]
  have hdoc : document digits = .error (.numeralTooLong digits.length) := by
    rw [document.eq_def]
    split
    · cases hc
      exact absurd hd (by decide)
    · rw [hv]
      rfl
  rw [read, String.toList_ofList, hdoc]

end Lineage.Json
