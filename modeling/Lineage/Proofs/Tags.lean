import Lineage.Markup

/-!
# Tags in markup

The tags of markup, and what becomes of them when foreign text is put between them. Escaped text
brings no tag of its own. It can still take one away: an odd number of backslashes at its end, more
than one, is left as it is, and makes plain text of the tag that follows.
-/

namespace Lineage.Markup

/-! ## Tags -/

/--
The tags of markup behind a number of backslashes, without their brackets. What could be a tag is
one if an even number of backslashes stands in front of it.
-/
def tagsFrom (slashes : Nat) : List Char → List String
  | [] => []
  | c :: cs =>
    if c == '\\' then tagsFrom (slashes + 1) cs
    else if c == '[' && opensTag cs && slashes % 2 == 0 then
      String.ofList (cs.takeWhile (· != ']')) :: tagsFrom 0 cs
    else tagsFrom 0 cs

def tags (markup : String) : List String :=
  tagsFrom 0 markup.toList

theorem tagsFrom_slash (slashes : Nat) (cs : List Char) :
    tagsFrom slashes ('\\' :: cs) = tagsFrom (slashes + 1) cs := rfl

theorem tagsFrom_cons {c : Char} (hc : c ≠ '\\') (slashes : Nat) (cs : List Char) :
    tagsFrom slashes (c :: cs) =
      if c == '[' && opensTag cs && slashes % 2 == 0 then
        String.ofList (cs.takeWhile (· != ']')) :: tagsFrom 0 cs
      else tagsFrom 0 cs := by
  rw [tagsFrom, if_neg (by simpa using hc)]

/-- The number of backslashes at the end of a text that stands behind a number of them. -/
def slashesAfter (slashes : Nat) : List Char → Nat
  | [] => slashes
  | c :: cs => slashesAfter (if c == '\\' then slashes + 1 else 0) cs

/-- Whether a text, once it is escaped, makes plain text of a tag behind it. -/
def Swallows (text : String) : Prop :=
  slashesAfter 0 text.toList % 2 = 1 ∧ slashesAfter 0 text.toList ≠ 1

instance (text : String) : Decidable (Swallows text) :=
  inferInstanceAs (Decidable (_ ∧ _))

theorem slashesAfter_slash (slashes : Nat) (cs : List Char) :
    slashesAfter slashes ('\\' :: cs) = slashesAfter (slashes + 1) cs := rfl

theorem slashesAfter_append (slashes : Nat) (cs rest : List Char) :
    slashesAfter slashes (cs ++ rest) = slashesAfter (slashesAfter slashes cs) rest := by
  induction cs generalizing slashes with
  | nil => rfl
  | cons c cs ih => exact ih _

/-- Only the last part of a text can end in backslashes if another character stands before it. -/
theorem slashesAfter_append_cons {c : Char} (hc : (c == '\\') = false) (cs rest : List Char) :
    slashesAfter 0 (cs ++ c :: rest) = slashesAfter 0 rest := by
  rw [slashesAfter_append, slashesAfter, hc]
  rfl

/-! ## Whole texts -/

/-- Whether a text has no backslash and each of its opening brackets starts a tag within it. -/
def whole : List Char → Bool
  | [] => true
  | c :: cs => c != '\\' && (c != '[' || opensTag cs) && whole cs

theorem whole_of_forall_ne {cs : List Char} (h : ∀ c ∈ cs, c ≠ '[' ∧ c ≠ '\\') :
    whole cs = true := by
  induction cs with
  | nil => rfl
  | cons c cs ih =>
    rw [List.forall_mem_cons] at h
    simp [whole, h.1, ih h.2]

theorem closes_append {cs : List Char} (h : closes cs = true) (rest : List Char) :
    closes (cs ++ rest) = true := by
  induction cs with
  | nil => cases h
  | cons c cs ih =>
    rw [List.cons_append, closes]
    rw [closes] at h
    split
    · rfl
    · next hclose =>
      rw [if_neg hclose] at h
      split
      · next hopen =>
        rw [if_pos hopen] at h
        exact h
      · next hopen =>
        rw [if_neg hopen] at h
        exact ih h

theorem opensTag_append {cs : List Char} (h : opensTag cs = true) (rest : List Char) :
    opensTag (cs ++ rest) = true := by
  cases cs with
  | nil => cases h
  | cons c cs =>
    rw [opensTag, Bool.and_eq_true] at h
    rw [List.cons_append, opensTag, h.1, closes_append h.2]
    rfl

/-- The name of a tag ends where its bracket closes, whatever follows. -/
theorem takeWhile_append_of_closes {cs : List Char} (h : closes cs = true) (rest : List Char) :
    (cs ++ rest).takeWhile (· != ']') = cs.takeWhile (· != ']') := by
  induction cs with
  | nil => cases h
  | cons c cs ih =>
    rw [closes] at h
    rw [List.cons_append, List.takeWhile_cons, List.takeWhile_cons]
    split
    · next hclose =>
      rw [if_neg (by simpa using hclose)] at h
      split at h
      · cases h
      · rw [ih h]
    · rfl

theorem closes_of_opensTag {cs : List Char} (h : opensTag cs = true) : closes cs = true := by
  cases cs with
  | nil => cases h
  | cons c cs =>
    rw [opensTag, Bool.and_eq_true] at h
    rw [closes]
    split
    · rfl
    · split
      · next hopen =>
        obtain rfl := eq_of_beq hopen
        exact absurd h.1 (by decide)
      · exact h.2

/-- A tag within a text stays the same, whatever follows the text. -/
theorem tagsFrom_append_of_whole {cs : List Char} (h : whole cs = true) (rest : List Char) :
    tagsFrom 0 (cs ++ rest) = tagsFrom 0 cs ++ tagsFrom 0 rest := by
  induction cs with
  | nil => rfl
  | cons c cs ih =>
    simp only [whole, Bool.and_eq_true, Bool.or_eq_true, bne_iff_ne] at h
    obtain ⟨⟨hslash, hopen⟩, hwhole⟩ := h
    rw [List.cons_append, tagsFrom_cons hslash, tagsFrom_cons hslash, ih hwhole]
    rcases hopen with hopen | hopen
    · simp [hopen]
    · rw [opensTag_append hopen, hopen, takeWhile_append_of_closes (closes_of_opensTag hopen)]
      split <;> rfl

theorem tagsFrom_of_forall_ne {cs : List Char} (h : ∀ c ∈ cs, c ≠ '[') (slashes : Nat) :
    tagsFrom slashes cs = [] := by
  induction cs generalizing slashes with
  | nil => rfl
  | cons c cs ih =>
    rw [List.forall_mem_cons] at h
    rw [tagsFrom]
    split
    · exact ih h.2 _
    · rw [if_neg (by simp [h.1])]
      exact ih h.2 _

theorem tagsFrom_append_of_forall_ne {rest : List Char}
    (h : ∀ c ∈ rest, c ≠ '[' ∧ c ≠ ']') (cs : List Char) (slashes : Nat) :
    tagsFrom slashes (cs ++ rest) = tagsFrom slashes cs := by
  have hrest : closes rest = false := by
    induction rest with
    | nil => rfl
    | cons c rest ih =>
      rw [List.forall_mem_cons] at h
      simp [closes, h.1, ih h.2]
  have hcloses : ∀ cs, closes (cs ++ rest) = closes cs := fun cs => by
    induction cs with
    | nil => exact hrest
    | cons c cs ih => rw [List.cons_append, closes, closes, ih]
  have hopens : ∀ cs, opensTag (cs ++ rest) = opensTag cs := fun cs => by
    cases cs with
    | nil =>
      exact Bool.eq_false_iff.mpr fun ho =>
        absurd ((closes_of_opensTag ho).symm.trans hrest) (by decide)
    | cons c cs => rw [List.cons_append, opensTag, opensTag, hcloses]
  induction cs generalizing slashes with
  | nil => exact tagsFrom_of_forall_ne (fun c hc => (h c hc).1) slashes
  | cons c cs ih =>
    rw [List.cons_append, tagsFrom, tagsFrom, hopens, ih, ih]
    split
    · rfl
    · split
      · next htag =>
        rw [Bool.and_eq_true, Bool.and_eq_true] at htag
        rw [takeWhile_append_of_closes (closes_of_opensTag htag.1.2)]
      · rfl

/-! ## Escaped texts -/

/-- Of the backslashes in front of a tag only the parity counts. -/
theorem tagsFrom_congr {n m : Nat} (h : n % 2 = m % 2) (cs : List Char) :
    tagsFrom n cs = tagsFrom m cs := by
  induction cs generalizing n m with
  | nil => rfl
  | cons c cs ih =>
    rw [tagsFrom, tagsFrom, h]
    split
    · exact ih (by omega)
    · rfl

theorem tagsFrom_replicate (slashes n : Nat) (rest : List Char) :
    tagsFrom slashes (List.replicate n '\\' ++ rest) = tagsFrom (slashes + n) rest := by
  induction n generalizing slashes with
  | zero => rfl
  | succ n ih =>
    rw [List.replicate_succ, List.cons_append, tagsFrom_slash, ih]
    congr 1
    omega

theorem slashesAfter_replicate (slashes n : Nat) (rest : List Char) :
    slashesAfter slashes (List.replicate n '\\' ++ rest) = slashesAfter (slashes + n) rest := by
  induction n generalizing slashes with
  | zero => rfl
  | succ n ih =>
    rw [List.replicate_succ, List.cons_append, slashesAfter_slash, ih]
    congr 1
    omega

theorem closes_replicate (n : Nat) (rest : List Char) :
    closes (List.replicate n '\\' ++ rest) = closes rest := by
  induction n with
  | zero => rfl
  | succ n ih => exact ih

/-- Escaping moves no closing bracket in front of an opening one. -/
theorem closes_escapeTags {rest : List Char} (hrest : closes rest = false) (slashes : Nat)
    (cs : List Char) : closes (escapeTags slashes cs ++ rest) = closes cs := by
  induction cs generalizing slashes with
  | nil => rw [escapeTags, closes_replicate, hrest, closes]
  | cons c cs ih =>
    rw [escapeTags, closes]
    split
    · next hslash =>
      obtain rfl := eq_of_beq hslash
      exact ih _
    · split
      · next htag =>
        rw [Bool.and_eq_true, beq_iff_eq] at htag
        rw [List.append_assoc, closes_replicate, List.cons_append, closes, htag.1]
        rfl
      · rw [List.append_assoc, closes_replicate, List.cons_append, closes, ih]

theorem exists_escapeTags_succ (slashes : Nat) (cs : List Char) :
    ∃ rest, escapeTags (slashes + 1) cs = '\\' :: rest := by
  induction cs generalizing slashes with
  | nil => exact ⟨_, rfl⟩
  | cons c cs ih =>
    rw [escapeTags]
    split
    · exact ih _
    · split <;> exact ⟨_, rfl⟩

theorem opensTag_escapeTags {rest cs : List Char} (hrest : closes rest = false)
    (h : opensTag cs = false) : opensTag (escapeTags 0 cs ++ rest) = false := by
  cases cs with
  | nil =>
    exact Bool.eq_false_iff.mpr fun ho =>
      absurd ((closes_of_opensTag ho).symm.trans hrest) (by decide)
  | cons c cs =>
    rw [escapeTags]
    split
    · obtain ⟨tail, htail⟩ := exists_escapeTags_succ 0 cs
      rw [htail]
      rfl
    · split
      · rfl
      · rw [opensTag] at h
        rw [List.replicate_zero, List.nil_append, List.cons_append, opensTag,
          closes_escapeTags hrest, h]

/-- Escaped text has no tag, and what stands behind it stands behind the backslashes at its end. -/
theorem tagsFrom_escapeTags {rest : List Char} (hrest : closes rest = false) (slashes : Nat)
    (cs : List Char) :
    tagsFrom 0 (escapeTags slashes cs ++ rest) = tagsFrom (slashesAfter slashes cs) rest := by
  induction cs generalizing slashes with
  | nil => rw [escapeTags, tagsFrom_replicate, Nat.zero_add, slashesAfter]
  | cons c cs ih =>
    rw [escapeTags, slashesAfter]
    split
    · exact ih _
    · next hslash =>
      split
      · next htag =>
        -- the bracket stands behind an odd number of backslashes
        rw [List.append_assoc, tagsFrom_replicate, List.cons_append, tagsFrom, if_neg hslash,
          if_neg (by simp), ih]
      · next htag =>
        rw [List.append_assoc, tagsFrom_replicate, List.cons_append, tagsFrom, if_neg hslash,
          if_neg, ih]
        rw [Bool.and_eq_true, Bool.and_eq_true]
        rintro ⟨⟨hopen, htag'⟩, -⟩
        rw [hopen, Bool.true_and, Bool.not_eq_true] at htag
        rw [opensTag_escapeTags hrest htag] at htag'
        cases htag'

theorem slashesAfter_escapeTags (slashes : Nat) (cs : List Char) :
    slashesAfter 0 (escapeTags slashes cs) = slashesAfter slashes cs := by
  induction cs generalizing slashes with
  | nil =>
    rw [escapeTags, ← List.append_nil (List.replicate _ _), slashesAfter_replicate,
      Nat.zero_add]
  | cons c cs ih =>
    rw [escapeTags, slashesAfter]
    split
    · exact ih _
    · next hslash =>
      split
      · rw [slashesAfter_replicate, slashesAfter, if_neg hslash, ih]
      · rw [slashesAfter_replicate, slashesAfter, if_neg hslash, ih]

/-- Only a backslash that stands alone at the end is doubled. -/
theorem closeSlash_eq (cs : List Char) :
    closeSlash cs = if slashesAfter 0 cs = 1 then cs ++ ['\\'] else cs := by
  have hsnoc : ∀ c (rs : List Char), slashesAfter 0 (rs ++ [c]) =
      if c == '\\' then slashesAfter 0 rs + 1 else 0 := fun c rs => slashesAfter_append 0 rs [c]
  rw [closeSlash]
  split
  · next r hr =>
    rw [List.reverse_eq_cons_iff, List.reverse_cons] at hr
    rw [hr, hsnoc, hsnoc]
    simp
  · next r hne hr =>
    rw [List.reverse_eq_cons_iff] at hr
    have hzero : slashesAfter 0 r.reverse = 0 := by
      cases r with
      | nil => rfl
      | cons c r =>
        rw [List.reverse_cons, hsnoc]
        exact if_neg fun hc => hne r (by rw [eq_of_beq hc])
    rw [hr, hsnoc, hzero]
    rfl
  · next hne hne' =>
    have hzero : slashesAfter 0 cs = 0 := by
      rw [← List.reverse_reverse cs]
      cases hr : cs.reverse with
      | nil => rfl
      | cons c r =>
        rw [List.reverse_cons, hsnoc]
        exact if_neg fun hc => hne' r (by rw [hr, eq_of_beq hc])
    simp [hzero]

/-- Escaped text has no tag, and all it does to what follows is to swallow its first tag. -/
theorem tagsFrom_escape {rest : List Char} (hrest : closes rest = false) (text : String) :
    tagsFrom 0 ((escape text).toList ++ rest) =
      tagsFrom (if Swallows text then 1 else 0) rest := by
  rw [escape, String.toList_ofList, closeSlash_eq, slashesAfter_escapeTags]
  split
  · next hone =>
    rw [List.append_assoc, tagsFrom_escapeTags (by exact hrest), hone, List.singleton_append,
      tagsFrom_slash, if_neg fun h => h.2 hone]
    exact tagsFrom_congr (by decide) rest
  · next hone =>
    rw [tagsFrom_escapeTags hrest]
    refine tagsFrom_congr ?_ rest
    split
    · next hs => exact hs.1
    · next hs =>
      rw [Swallows] at hs
      omega

end Lineage.Markup
