import Lineage.Proofs.Tags

/-!
# Formats

Markup is put together from texts of a program and other texts, which a format keeps apart. The
program means to show its own tags and no other ones; where the pieces fit together, it does so
unless a text swallows one of them.
-/

namespace Lineage.Markup

/-! ## Formats -/

/-- A piece of markup: a text of the program, or another text, escaped or as it is. -/
inductive Piece
  | own (text : String)
  | shown (text : String)
  | bare (text : String)

namespace Piece

def markup : Piece → String
  | own text => text
  | shown text => escape text
  | bare text => text

def tags : Piece → List String
  | own text => Markup.tags text
  | shown _ => []
  | bare _ => []

end Piece

abbrev Format := List Piece

/-- A text without an opening bracket and without a backslash. -/
def Bare (text : String) : Prop :=
  ∀ c ∈ text.toList, c ≠ '[' ∧ c ≠ '\\'

-- Given explicitly: instance search would otherwise try to enumerate every character.
instance (text : String) : Decidable (Bare text) :=
  List.decidableBAll (fun c => c ≠ '[' ∧ c ≠ '\\') text.toList

theorem Bare.append {s t : String} (hs : Bare s) (ht : Bare t) : Bare (s ++ t) := by
  intro c hc
  rw [String.toList_append, List.mem_append] at hc
  exact hc.elim (hs c) (ht c)

theorem Bare.whole {text : String} (h : Bare text) : whole text.toList = true :=
  whole_of_forall_ne h

namespace Format

def markup : Format → String
  | [] => ""
  | p :: f => p.markup ++ markup f

def tags (f : Format) : List String :=
  f.flatMap Piece.tags

/--
The pieces fit together: the texts of the program hold whole tags, a text that is put in as it is
has nothing to do with tags, and behind an escaped text nothing follows but a tag of the program.
-/
def Fits : Format → Prop
  | [] => True
  | .own text :: f => whole text.toList = true ∧ Fits f
  | .bare text :: f => Bare text ∧ Fits f
  | [.shown _] => True
  | .shown _ :: .own text :: f =>
    text.toList.head? = some '[' ∧ whole text.toList = true ∧ Fits f
  | .shown _ :: _ => False

/-- The tags that are found in the markup of pieces that fit together. -/
def found : Format → List String
  | [] => []
  | .own text :: f => Markup.tags text ++ found f
  | .bare _ :: f => found f
  | [.shown _] => []
  | .shown shown :: .own text :: f =>
    (if Swallows shown then (Markup.tags text).tail else Markup.tags text) ++ found f
  | .shown _ :: f => found f

/-- No text that is put in swallows a tag of the program. -/
def Sound : Format → Prop
  | [] => True
  | .own _ :: f => Sound f
  | .bare _ :: f => Sound f
  | [.shown _] => True
  | .shown shown :: .own _ :: f => ¬ Swallows shown ∧ Sound f
  | .shown _ :: f => Sound f

end Format

/-- A text that starts with a tag loses this one behind a single backslash. -/
theorem tagsFrom_one_of_whole {text : List Char} (hhead : text.head? = some '[')
    (hwhole : whole text = true) (rest : List Char) :
    (∃ tag more, tagsFrom 0 text = tag :: more) ∧
      tagsFrom 1 (text ++ rest) = (tagsFrom 0 text).tail ++ tagsFrom 0 rest := by
  cases text with
  | nil => cases hhead
  | cons c cs =>
    obtain rfl := Option.some.inj hhead
    simp only [whole, Bool.and_eq_true, Bool.or_eq_true, bne_self_eq_false, Bool.false_eq_true,
      false_or] at hwhole
    obtain ⟨⟨-, hopens⟩, hwhole⟩ := hwhole
    have hfirst : tagsFrom 0 ('[' :: cs) =
        String.ofList (cs.takeWhile (· != ']')) :: tagsFrom 0 cs := by
      rw [tagsFrom_cons (by decide), hopens]
      rfl
    refine ⟨⟨_, _, hfirst⟩, ?_⟩
    rw [hfirst, List.tail_cons, List.cons_append, tagsFrom_cons (by decide), if_neg (by simp),
      tagsFrom_append_of_whole hwhole]

namespace Format

theorem toList_markup_cons (p : Piece) (f : Format) :
    (markup (p :: f)).toList = p.markup.toList ++ (markup f).toList := by
  rw [markup, String.toList_append]

theorem tags_cons (p : Piece) (f : Format) : tags (p :: f) = p.tags ++ tags f :=
  List.flatMap_cons

/-- Behind an escaped text only a text of the program fits. -/
theorem not_fits_shown {text : String} {f : Format} (hnil : f = [] → False)
    (hown : ∀ own rest, f = .own own :: rest → False) : ¬ Fits (.shown text :: f) := by
  cases f with
  | nil => exact (hnil rfl).elim
  | cons p f =>
    cases p with
    | own own => exact (hown own f rfl).elim
    | shown _ => exact id
    | bare _ => exact id

/-- Where pieces fit together, texts that are put in swallow tags, and do nothing else. -/
theorem tags_markup {f : Format} (h : f.Fits) : Markup.tags f.markup = f.found := by
  rw [Markup.tags]
  fun_induction found f with
  | case1 => rfl
  | case2 text f ih =>
    rw [toList_markup_cons, Piece.markup, tagsFrom_append_of_whole h.1, ih h.2, Markup.tags]
  | case3 text f ih =>
    rw [toList_markup_cons, Piece.markup, tagsFrom_append_of_whole h.1.whole,
      ih h.2, tagsFrom_of_forall_ne fun c hc => (h.1 c hc).1]
    rfl
  | case4 text =>
    rw [toList_markup_cons, Piece.markup, tagsFrom_escape (by rfl)]
    rfl
  | case5 shown text f ih =>
    obtain ⟨hhead, hwhole, hfits⟩ := h
    obtain ⟨-, hone⟩ := tagsFrom_one_of_whole hhead hwhole (markup f).toList
    have hcloses : closes (text.toList ++ (markup f).toList) = false := by
      obtain ⟨cs, hcs⟩ := List.head?_eq_some_iff.mp hhead
      rw [hcs]
      rfl
    rw [toList_markup_cons, toList_markup_cons, Piece.markup, Piece.markup,
      tagsFrom_escape hcloses, ← ih hfits]
    split
    · exact hone
    · exact tagsFrom_append_of_whole hwhole _
  | case6 text f hnil hown ih =>
    exact (not_fits_shown hnil hown h).elim

theorem length_found_le (f : Format) : f.found.length ≤ f.tags.length := by
  fun_induction found f with
  | case1 | case4 => exact Nat.zero_le _
  | case2 text f ih => simpa [tags_cons, Piece.tags] using ih
  | case3 text f ih | case6 text f hnil hown ih => simpa [tags_cons, Piece.tags] using ih
  | case5 shown text f ih =>
    simp only [tags_cons, Piece.tags, List.length_append, List.length_nil]
    split
    · rw [List.length_tail]
      omega
    · omega

/-- The tags of markup are those that the program wrote if and only if none is swallowed. -/
theorem tags_markup_iff {f : Format} (h : f.Fits) :
    Markup.tags f.markup = f.tags ↔ f.Sound := by
  rw [tags_markup h]
  fun_induction found f with
  | case1 | case4 => exact iff_of_true rfl trivial
  | case2 text f ih =>
    rw [tags_cons, Piece.tags, List.append_right_inj, ih h.2, Sound]
  | case3 text f ih =>
    rw [tags_cons, Piece.tags, List.nil_append, ih h.2, Sound]
  | case5 shown text f ih =>
    obtain ⟨hhead, hwhole, hfits⟩ := h
    rw [tags_cons, tags_cons, Piece.tags, Piece.tags, List.nil_append, Sound]
    split
    · next hswallows =>
      obtain ⟨⟨tag, more, htags⟩, -⟩ := tagsFrom_one_of_whole hhead hwhole []
      refine iff_of_false (fun he => ?_) fun hs => hs.1 hswallows
      have hlength := congrArg List.length he
      have hle := length_found_le f
      rw [Markup.tags, htags] at hlength
      simp only [List.tail_cons, List.length_append, List.length_cons] at hlength
      omega
    · next hswallows =>
      rw [List.append_right_inj, ih hfits]
      exact (and_iff_right hswallows).symm
  | case6 text f hnil hown ih => exact (not_fits_shown hnil hown h).elim

end Format

end Lineage.Markup
