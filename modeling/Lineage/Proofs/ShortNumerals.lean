import Lineage.Proofs.Checks
import Lineage.Proofs.LongNumerals

/-!
# Short numerals

An integer that the reader returns has few enough digits to be written. So have the numbers of a
description that is made of what it returns, whether they stand there as integers, as doubles or in
texts.
-/

namespace Lineage

/-! ## Digits -/

namespace Text

theorem writable_neg {n : Int} : Writable (-n) ↔ Writable n := by
  rw [Writable, Writable, Int.natAbs_neg]

/-- A number within the bound for doubles can be written. -/
theorem writable_of_lt {n : Int} (h : n.natAbs < Nat.pow 2 63) : Writable n := by
  have hle : 63 ≤ maxDigits := by decide +kernel
  calc n.natAbs
      < Nat.pow 2 63 := h
    _ ≤ Nat.pow 10 63 := Nat.pow_le_pow_left (by decide) 63
    _ ≤ Nat.pow 10 maxDigits := Nat.pow_le_pow_right (by decide) hle

private theorem foldl_lt {digits : List Char} (hall : ∀ c ∈ digits, c.isDigit) (n : Nat) :
    digits.foldl (fun n c => n * 10 + (c.toNat - 48)) n < (n + 1) * Nat.pow 10 digits.length := by
  induction digits generalizing n with
  | nil => simp
  | cons c digits ih =>
    rw [List.forall_mem_cons] at hall
    have hc : c.toNat - 48 ≤ 9 := by
      have hle : c.toNat ≤ 57 := by simpa using (Char.isDigit_iff_toNat.mp hall.1).2
      omega
    calc digits.foldl (fun n c => n * 10 + (c.toNat - 48)) (n * 10 + (c.toNat - 48))
        < (n * 10 + (c.toNat - 48) + 1) * Nat.pow 10 digits.length := ih hall.2 _
      _ ≤ ((n + 1) * 10) * Nat.pow 10 digits.length := Nat.mul_le_mul_right _ (by omega)
      _ = (n + 1) * Nat.pow 10 (c :: digits).length := by
        rw [Nat.mul_assoc, Nat.mul_comm 10]
        rfl

theorem writable_decimalValue {digits : List Char} (hall : ∀ c ∈ digits, c.isDigit)
    (hlen : digits.length ≤ maxDigits) : Writable (Json.decimalValue digits) := by
  have hlt : Json.decimalValue digits < Nat.pow 10 digits.length := by
    simpa [Json.decimalValue] using foldl_lt hall 0
  rw [Writable, Int.natAbs_natCast]
  exact Nat.lt_of_lt_of_le hlt (Nat.pow_le_pow_right (by decide) hlen)

end Text

/-! ## Reading -/

namespace Json

variable {α β : Type}

/-- Whatever a scanner returns has a property. -/
def Yields {s : List Char} (P : α → Prop) (x : Except Stop (α × Rest s)) : Prop :=
  ∀ a r, x = .ok (a, r) → P a

theorem Yields.bind {s t : List Char} {P : α → Prop} {Q : β → Prop}
    {x : Except Stop (α × Rest t)} (hx : Yields P x) {f : α × Rest t → Except Stop (β × Rest s)}
    (hf : ∀ a r, P a → Yields Q (f (a, r))) : Yields Q (x >>= f) := by
  intro b r h
  cases x with
  | error stop => cases h
  | ok read => exact hf read.1 read.2 (hx _ _ rfl) b r h

theorem yields_ok {s : List Char} {P : α → Prop} {a : α} {r : Rest s} (h : P a) :
    Yields P (.ok (a, r)) := by
  intro b r' he
  cases he
  exact h

theorem yields_error {s : List Char} (P : α → Prop) (stop : Stop) :
    Yields P (.error stop : Except Stop (α × Rest s)) :=
  nofun

/-! ## Numbers -/

theorem isWritable_of_numeral {n : Numeral} {v : Json} (hall : ∀ c ∈ n.whole, c.isDigit)
    (h : n.value = .ok v) : v.isWritable := by
  rw [Numeral.value] at h
  split at h
  · split at h
    · cases h
    · next hlen =>
      cases h
      have hwritable := Text.writable_decimalValue hall (Nat.le_of_not_lt hlen)
      cases n.negative with
      | true => simpa [isWritable, Text.writable_neg] using hwritable
      | false => simpa [isWritable] using hwritable
  · cases h
    rfl

theorem yields_unsigned (negative : Bool) (start s : List Char) :
    Yields (fun v => v.isWritable = true) (unsigned negative start s) := by
  rw [unsigned]
  split
  · exact yields_error _ _
  · next whole r hw =>
    simp only
    split
    · exact yields_error _ _
    · next v hv => exact yields_ok (isWritable_of_numeral (wholePart?_eq_some hw).2 hv)

/-! ## Values -/

theorem yields_scalar (s : List Char) : Yields (fun v => v.isWritable = true) (scalar s) := by
  rw [scalar.eq_def]
  split
  · exact Yields.bind (P := fun _ => True) (fun _ _ _ => trivial) fun _ _ _ => yields_ok rfl
  · exact yields_ok rfl
  · exact yields_ok rfl
  · exact yields_ok rfl
  · exact yields_ok rfl
  · exact yields_ok rfl
  · exact yields_ok rfl
  · split
    · exact yields_error _ _
    · next v r hv => exact yields_ok (yields_unsigned _ _ _ v r hv)
  · exact yields_unsigned false s s

theorem membersWritable_setMember {members : List (String × Json)} {name : String} {v : Json}
    (h : membersWritable members) (hv : v.isWritable) :
    membersWritable (setMember members name v) := by
  induction members with
  | nil => simp [setMember, membersWritable, hv]
  | cons m rest ih =>
    simp only [membersWritable, Bool.and_eq_true] at h
    rw [setMember]
    split
    · simp [membersWritable, hv, h.2]
    · simp [membersWritable, h.1, ih h.2]

theorem membersWritable_mergeMembers {members : List (String × Json)}
    (h : membersWritable members) : membersWritable (mergeMembers members) := by
  -- What has been merged so far is kept along.
  have hfold : ∀ (merged : List (String × Json)), membersWritable merged →
      membersWritable (members.foldl (fun ms m => setMember ms m.1 m.2) merged) := by
    induction members with
    | nil => exact fun _ hmerged => hmerged
    | cons m rest ih =>
      simp only [membersWritable, Bool.and_eq_true] at h
      exact fun merged hmerged => ih h.2 _ (membersWritable_setMember hmerged h.1)
  exact hfold [] rfl

theorem yields_value {s : List Char}
    (he : ∀ t, t.length < s.length → Yields (fun vs => areWritable vs = true) (elements t))
    (hm : ∀ t, t.length < s.length → Yields (fun ms => membersWritable ms = true) (members t)) :
    Yields (fun v => v.isWritable = true) (value s) := by
  rw [value.eq_def]
  split
  · next r =>
    simp only
    split
    · exact yields_ok rfl
    · exact (he _ (Nat.lt_succ_of_le (skipGap r).2)).bind fun _ _ hvs => yields_ok hvs
  · next r =>
    simp only
    split
    · exact yields_ok rfl
    · exact (hm _ (Nat.lt_succ_of_le (skipGap r).2)).bind fun _ _ hms =>
        yields_ok (membersWritable_mergeMembers hms)
  · exact yields_scalar s

theorem yields_elements {s : List Char} (hv : Yields (fun v => v.isWritable = true) (value s))
    (he : ∀ t, t.length < s.length → Yields (fun vs => areWritable vs = true) (elements t)) :
    Yields (fun vs => areWritable vs = true) (elements s) := by
  rw [elements.eq_def]
  refine hv.bind fun v r hwritable => ?_
  simp only
  split
  · exact yields_ok (by simp [areWritable, hwritable])
  · next t h =>
    exact (he _ ((length_lt_of_skipGap h).trans r.2)).bind fun _ _ hvs =>
      yields_ok (by simp [areWritable, hwritable, hvs])
  · exact yields_error _ _

theorem yields_members {s : List Char}
    (hv : ∀ t, t.length < s.length → Yields (fun v => v.isWritable = true) (value t))
    (hm : ∀ t, t.length < s.length → Yields (fun ms => membersWritable ms = true) (members t)) :
    Yields (fun ms => membersWritable ms = true) (members s) := by
  rw [members.eq_def]
  refine Yields.bind (P := fun _ => True) (fun _ _ _ => trivial) fun name n _ => ?_
  refine (hv n.1 n.2).bind fun v r hwritable => ?_
  simp only
  split
  · exact yields_ok (by simp [membersWritable, hwritable])
  · next t h =>
    exact (hm _ ((length_lt_of_skipGap h).trans (r.2.trans n.2))).bind fun _ _ hms =>
      yields_ok (by simp [membersWritable, hwritable, hms])
  · exact yields_error _ _

/-- All integers of a value that is read can be written. -/
theorem isWritable_of_read {text : String} {v : Json} (h : read text = .ok v) :
    v.isWritable := by
  have hdocument : document text.toList = .ok v := by
    rw [read] at h
    split at h
    · next hd =>
      cases h
      exact hd
    · cases h
    · cases h
  rw [document.eq_def] at hdocument
  split at hdocument
  · cases hdocument
  · have hyields := (nested_induction (fun _ => yields_value) (fun _ => yields_elements)
      (fun _ => yields_members) (skipGap text.toList).1).1
    cases hv : value (skipGap text.toList).1 with
    | error stop =>
      rw [hv] at hdocument
      cases hdocument
    | ok found =>
      rw [hv] at hdocument
      simp only [bind, Except.bind] at hdocument
      split at hdocument
      · cases hdocument
        exact hyields _ _ hv
      · cases hdocument

end Json

/-! ## Integers in text -/

namespace IntegerText

theorem writable_of_natural? {s : List Char} {n : Nat} (h : natural? s = some n) :
    Text.Writable n := by
  rw [natural?.eq_def] at h
  split at h
  · cases h
    exact Text.writable_of_lt (by decide)
  · split at h
    · next hs =>
      cases h
      simp only [Bool.and_eq_true, List.all_eq_true, decide_eq_true_eq] at hs
      exact Text.writable_decimalValue hs.1.2 hs.2
    · cases h
  · cases h

theorem writable_of_plain? {s : List Char} {n : Int} (h : plain? s = some n) :
    Text.Writable n := by
  rw [plain?.eq_def] at h
  split at h
  · obtain ⟨m, hm, rfl⟩ := Option.map_eq_some_iff.mp h
    exact Text.writable_neg.mpr (writable_of_natural? hm)
  · obtain ⟨m, hm, rfl⟩ := Option.map_eq_some_iff.mp h
    exact writable_of_natural? hm

theorem writable_of_read {text : String} {n : Int} (h : read text = .integer n) :
    Text.Writable n := by
  rw [read] at h
  split at h
  · cases h
  · split at h
    · next m hm =>
      cases h
      simp only [value?, Option.bind_eq_bind, Option.bind_eq_some_iff] at hm
      obtain ⟨_, -, _, -, _, -, hplain⟩ := hm
      exact writable_of_plain? hplain
    · cases h

end IntegerText

/-! ## Descriptions -/

/-- The numbers of a declaration and of its parent can be written. -/
structure DeclarationEntry.Numbered (s : DeclarationEntry) : Prop where
  id : Text.Writable s.id
  parent : ∀ n, s.parent = some n → Text.Writable n

namespace Schema

theorem writable_of_integer {v : Json} {n : Int} (hv : v.isWritable)
    (h : integer v = .valid n) : Text.Writable n := by
  cases v with
  | int m =>
    cases h
    simpa [Json.isWritable] using hv
  | bool b =>
    cases h
    exact Text.writable_of_lt (by cases b <;> decide)
  | float x =>
    simp only [integer] at h
    split at h
    · split at h
      · cases h
      · split at h
        · next hbound =>
          cases h
          have hvalue : integerBound = (Nat.pow 2 63 : Nat) := rfl
          exact Text.writable_of_lt (by omega)
        · cases h
    · cases h
  | string s =>
    simp only [integer] at h
    split at h
    · next m hm =>
      cases h
      exact IntegerText.writable_of_read hm
    · cases h
    · cases h
  | null => cases h
  | array items => cases h
  | object members => cases h

theorem isWritable_of_member? {name : String} {members : List (String × Json)} {v : Json}
    (hm : Json.membersWritable members) (h : Json.member? name members = some v) :
    v.isWritable := by
  induction members with
  | nil => cases h
  | cons m rest ih =>
    simp only [Json.membersWritable, Bool.and_eq_true] at hm
    rw [Json.member?] at h
    split at h
    · cases h
      exact hm.1
    · exact ih hm.2 h

theorem isWritable_of_mem {items : List Json} {v : Json} (hi : Json.areWritable items)
    (h : v ∈ items) : v.isWritable := by
  induction items with
  | nil => cases h
  | cons u us ih =>
    simp only [Json.areWritable, Bool.and_eq_true] at hi
    rcases List.mem_cons.mp h with rfl | h
    · exact hi.1
    · exact ih hi.2 h

/-- The numbers of a valid declaration are those of its members. -/
theorem numbers_of_declaration {members : List (String × Json)} {s : DeclarationEntry}
    (h : declaration (.object members) = .valid s) :
    required members "id" integer = .valid s.id ∧
      optional members "parent" none (nullable integer) = .valid s.parent := by
  obtain ⟨_, decorators, h₁, -, rfl⟩ := Checked.seq_eq_valid.mp h
  obtain ⟨_, implemented, h₂, -, rfl⟩ := Checked.seq_eq_valid.mp h₁
  obtain ⟨_, extended, h₃, -, rfl⟩ := Checked.seq_eq_valid.mp h₂
  obtain ⟨_, overwrites, h₄, -, rfl⟩ := Checked.seq_eq_valid.mp h₃
  obtain ⟨_, inherited, h₅, -, rfl⟩ := Checked.seq_eq_valid.mp h₄
  obtain ⟨_, type, h₆, -, rfl⟩ := Checked.seq_eq_valid.mp h₅
  obtain ⟨_, parent, h₇, hparent, rfl⟩ := Checked.seq_eq_valid.mp h₆
  obtain ⟨_, symbol, h₈, -, rfl⟩ := Checked.seq_eq_valid.mp h₇
  obtain ⟨_, kind, h₉, -, rfl⟩ := Checked.seq_eq_valid.mp h₈
  obtain ⟨_, name, h₁₀, -, rfl⟩ := Checked.seq_eq_valid.mp h₉
  obtain ⟨id, hid, rfl⟩ := Checked.map_eq_valid.mp h₁₀
  exact ⟨hid, hparent⟩

theorem numbered_of_declaration {v : Json} {s : DeclarationEntry} (hv : v.isWritable)
    (h : declaration v = .valid s) : s.Numbered := by
  cases v with
  | object members =>
    obtain ⟨hid, hparent⟩ := numbers_of_declaration h
    constructor
    · obtain ⟨u, hu, hid⟩ := required_eq_valid.mp hid
      exact writable_of_integer (isWritable_of_member? hv hu) hid
    · intro n hn
      rw [hn] at hparent
      obtain ⟨-, ⟨⟩⟩ | ⟨u, hu, hparent⟩ := optional_eq_valid.mp hparent
      exact writable_of_integer (isWritable_of_member? hv hu) (nullable_eq_some hparent)
  | _ => cases h

/-- The declarations that a document of such numbers describes are numbered by them. -/
theorem numbered_of_project {members : List (String × Json)} {spec : Description}
    (hm : Json.membersWritable members) (h : project members = .valid spec) :
    ∀ s ∈ spec.declarations, s.Numbered := by
  simp only [project, Checked.seq_eq_valid, Checked.map_eq_valid] at h
  obtain ⟨_, entries, ⟨name, -, rfl⟩, hentries, rfl⟩ := h
  intro s hs
  obtain ⟨-, rfl⟩ | ⟨u, hu, hlist⟩ := optional_eq_valid.mp hentries
  · cases hs
  · obtain ⟨items, rfl, hitems⟩ := list_eq_valid.mp hlist
    obtain ⟨i, hi, rfl⟩ := List.getElem_of_mem hs
    have hitem : i < items.length := hitems.length_eq ▸ hi
    have hwritable : Json.areWritable items := isWritable_of_member? hm hu
    exact numbered_of_declaration (isWritable_of_mem hwritable (List.getElem_mem hitem))
      (hitems.get hitem hi)

end Schema

end Lineage
