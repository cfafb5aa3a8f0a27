import TickCircuit.Grammar.Phrase
import TickCircuit.Proofs.Results
import TickCircuit.Proofs.Text.Split
/-!
Brackets of a text. A piece is closed where its brackets match and no comma stands outside of them.
Main statement: a text is cut into the closed pieces of which it is made up (`cut_eq_ok`).
-/
namespace TickCircuit.Grammar
open Text

/-- Whether a text closes the brackets that are open before it, innermost first, and has no comma
outside of all brackets. -/
def closed : List Char → List Char → Bool
  | opened, [] => opened.isEmpty
  | opened, c :: rest =>
    if c = '[' ∨ c = '<' then closed (c :: opened) rest
    else if c = ',' ∧ opened = [] then false
    else if c = ']' ∨ c = '>' then
      match opened with
      | [] => false
      | opener :: outer => closes opener c && closed outer rest
    else closed opened rest

theorem closed_cons (opened : List Char) (c : Char) (rest : List Char) :
    closed opened (c :: rest) =
      if c = '[' ∨ c = '<' then closed (c :: opened) rest
      else if c = ',' ∧ opened = [] then false
      else if c = ']' ∨ c = '>' then
        match opened with
        | [] => false
        | opener :: outer => closes opener c && closed outer rest
      else closed opened rest := by
  rw [closed.eq_def]

theorem closed_nil {opened : List Char} : closed opened [] = true ↔ opened = [] := by
  simp [closed]

theorem closed_append {opened : List Char} {s : List Char} (h : closed opened s = true)
    (outer t : List Char) : closed (opened ++ outer) (s ++ t) = closed outer t := by
  induction s generalizing opened with
  | nil =>
    rw [closed_nil.mp h]
    rfl
  | cons c s ih =>
    rw [closed_cons] at h
    rw [List.cons_append, closed_cons]
    by_cases hopen : c = '[' ∨ c = '<'
    · rw [if_pos hopen] at h ⊢
      exact ih h
    rw [if_neg hopen] at h ⊢
    by_cases hcomma : c = ',' ∧ opened = []
    · rw [if_pos hcomma] at h
      cases h
    rw [if_neg hcomma] at h
    have hcomma' : ¬(c = ',' ∧ opened ++ outer = []) := by
      simp only [List.append_eq_nil_iff]
      exact fun hc => hcomma ⟨hc.1, hc.2.1⟩
    rw [if_neg hcomma']
    by_cases hclose : c = ']' ∨ c = '>'
    · rw [if_pos hclose] at h ⊢
      cases opened with
      | nil => cases h
      | cons opener opened =>
        simp only [Bool.and_eq_true] at h
        simp only [List.cons_append, h.1, Bool.true_and]
        exact ih h.2
    · rw [if_neg hclose] at h ⊢
      exact ih h

theorem isBracket_of_isBlank {c : Char} (h : isBlank c = true) : isBracket c = false := by
  by_contra hb
  simp only [isBracket, Bool.not_eq_false, Bool.or_eq_true, beq_iff_eq] at hb
  obtain ((rfl | rfl) | rfl) | rfl := hb <;> cases h

theorem closed_plain_append {opened s : List Char} (h : ∀ c ∈ s, isBracket c = false)
    (hcomma : opened = [] → ',' ∉ s) (t : List Char) : closed opened (s ++ t) = closed opened t := by
  induction s with
  | nil => rfl
  | cons c s ih =>
    have hc := h c List.mem_cons_self
    simp only [isBracket, Bool.or_eq_false_iff, beq_eq_false_iff_ne] at hc
    have hne : ¬(c = ',' ∧ opened = []) := fun he => hcomma he.2 (he.1 ▸ List.mem_cons_self)
    rw [List.cons_append, closed_cons]
    simp only [hc, or_self, if_false, if_neg hne]
    exact ih (fun c hm => h c (List.mem_cons_of_mem _ hm))
      fun ho hm => hcomma ho (List.mem_cons_of_mem _ hm)

theorem not_mem_of_closed_append {s t : List Char} (h : ∀ c ∈ s, isBracket c = false)
    (hclosed : closed [] (s ++ t) = true) : ',' ∉ s := by
  induction s with
  | nil => exact List.not_mem_nil
  | cons c s ih =>
    have hc := h c List.mem_cons_self
    simp only [isBracket, Bool.or_eq_false_iff, beq_eq_false_iff_ne] at hc
    rw [List.cons_append, closed_cons] at hclosed
    simp only [hc, or_self, if_false, and_true] at hclosed
    by_cases hcomma : c = ','
    · rw [if_pos hcomma] at hclosed
      cases hclosed
    · rw [if_neg hcomma] at hclosed
      have hs := ih (fun c hm => h c (List.mem_cons_of_mem _ hm)) hclosed
      simp [hs, Ne.symm hcomma]

theorem closed_blank_append {s : List Char} (h : Blank s) (opened t : List Char) :
    closed opened (s ++ t) = closed opened t :=
  closed_plain_append (fun c hc => isBracket_of_isBlank (h c hc)) (fun _ => h.not_mem rfl) t

theorem closed_intercalate {pieces : List (List Char)}
    (h : ∀ piece ∈ pieces, closed [] piece = true) (opener : Char) (outer t : List Char) :
    closed (opener :: outer) (intercalate [','] pieces ++ t) = closed (opener :: outer) t := by
  induction pieces with
  | nil => rfl
  | cons piece pieces ih =>
    have hpiece := closed_append (h piece List.mem_cons_self) (opener :: outer)
    rw [List.nil_append] at hpiece
    cases pieces with
    | nil => exact hpiece t
    | cons next pieces =>
      have hrest := ih fun p hp => h p (List.mem_cons_of_mem _ hp)
      rw [intercalate, List.append_assoc, List.append_assoc, hpiece, List.singleton_append,
        closed_cons]
      · simpa using hrest
      · exact List.cons_ne_nil _ _

theorem closed_bracketed {opener closer : Char} (h : closes opener closer = true) {s : List Char}
    (hs : closed [opener] (s ++ [closer]) = true) : closed [] (opener :: s ++ [closer]) = true := by
  have hopener : opener = '[' ∨ opener = '<' := by
    simp only [closes, Bool.or_eq_true, Bool.and_eq_true, beq_iff_eq] at h
    exact h.imp And.left And.left
  rw [List.cons_append, closed_cons, if_pos hopener]
  exact hs

theorem closed_closer {opener closer : Char} (h : closes opener closer = true) :
    closed [opener] [closer] = true := by
  simp only [closes, Bool.or_eq_true, Bool.and_eq_true, beq_iff_eq] at h
  obtain ⟨rfl, rfl⟩ | ⟨rfl, rfl⟩ := h <;> rfl

theorem intercalate_cons_char (mark : List Char) (c : Char) (piece : List Char)
    (pieces : List (List Char)) :
    intercalate mark ((c :: piece) :: pieces) = c :: intercalate mark (piece :: pieces) := by
  cases pieces <;> simp [intercalate]

/-- The pieces of a cut, one by one: the first closes what is open before it. -/
def Pieces (opened text : List Char) (pieces : List (List Char)) : Prop :=
  ∃ first more, pieces = first :: more ∧ text = intercalate [','] pieces ∧
    closed opened first = true ∧ ∀ piece ∈ more, closed [] piece = true

theorem pieces_nil {opened : List Char} {pieces : List (List Char)} :
    Pieces opened [] pieces ↔ opened = [] ∧ pieces = [[]] := by
  constructor
  · intro h
    obtain ⟨first, more, rfl, htext, hfirst, -⟩ := h
    cases more with
    | nil =>
      cases (htext : [] = first)
      exact ⟨closed_nil.mp hfirst, rfl⟩
    | cons next more => simp [intercalate] at htext
  · intro h
    obtain ⟨rfl, rfl⟩ := h
    exact ⟨[], [], rfl, rfl, rfl, List.forall_mem_nil _⟩

/-- The first piece begins with the first character, or is empty where that is a comma. -/
theorem pieces_cons {opened rest : List Char} {c : Char} {pieces : List (List Char)} :
    Pieces opened (c :: rest) pieces ↔
      (c = ',' ∧ opened = [] ∧ ∃ more, pieces = [] :: more ∧ Pieces [] rest more) ∨
      ∃ first more, pieces = (c :: first) :: more ∧ closed opened (c :: first) = true ∧
        rest = intercalate [','] (first :: more) ∧ ∀ piece ∈ more, closed [] piece = true := by
  constructor
  · intro h
    obtain ⟨first, more, rfl, htext, hfirst, hmore⟩ := h
    cases first with
    | nil =>
      cases more with
      | nil => cases htext
      | cons next more =>
        simp only [intercalate, List.nil_append, List.singleton_append, List.cons.injEq] at htext
        obtain ⟨rfl, rfl⟩ := htext
        refine .inl ⟨rfl, closed_nil.mp hfirst, next :: more, rfl, next, more, rfl, rfl, ?_, ?_⟩
        · exact hmore next List.mem_cons_self
        · exact fun p hp => hmore p (List.mem_cons_of_mem _ hp)
    | cons x first =>
      rw [intercalate_cons_char, List.cons.injEq] at htext
      obtain ⟨rfl, rfl⟩ := htext
      exact .inr ⟨first, more, rfl, hfirst, rfl, hmore⟩
  · intro h
    obtain ⟨rfl, rfl, more, rfl, first, others, rfl, rfl, hfirst, hothers⟩ | h := h
    · refine ⟨[], first :: others, rfl, rfl, rfl, fun p hp => ?_⟩
      obtain rfl | hp := List.mem_cons.mp hp
      · exact hfirst
      · exact hothers p hp
    · obtain ⟨first, more, rfl, hfirst, rfl, hmore⟩ := h
      exact ⟨c :: first, more, rfl, (intercalate_cons_char ..).symm, hfirst, hmore⟩

theorem not_pieces_cons {opened rest : List Char} {c : Char} {pieces : List (List Char)}
    (hclosed : ∀ first, closed opened (c :: first) = false) (hc : c ≠ ',') :
    ¬Pieces opened (c :: rest) pieces := by
  intro h
  obtain ⟨hc', -⟩ | ⟨first, more, -, hfirst, -⟩ := pieces_cons.mp h
  · exact hc hc'
  · rw [hclosed] at hfirst
    cases hfirst

section Cut
variable {opened rest : List Char} {read : Except Flaw (List (List Char))}
  {pieces : List (List Char)}

theorem map_cons_nil_eq_ok (hread : ∀ found, read = .ok found ↔ Pieces [] rest found) :
    ([] :: ·) <$> read = .ok pieces ↔ Pieces [] (',' :: rest) pieces := by
  have hopen : ∀ first, closed [] (',' :: first) = false := fun first => by simp [closed_cons]
  rw [map_eq_ok, pieces_cons]
  constructor
  · rintro ⟨more, hmore, rfl⟩
    exact .inl ⟨rfl, rfl, more, rfl, (hread more).mp hmore⟩
  · rintro (⟨-, -, more, rfl, hmore⟩ | ⟨first, -, -, hfirst, -⟩)
    · exact ⟨more, (hread more).mpr hmore, rfl⟩
    · rw [hopen] at hfirst
      cases hfirst

theorem map_extendFirst_eq_ok {opened' : List Char} {c : Char}
    (hread : ∀ found, read = .ok found ↔ Pieces opened' rest found)
    (hclosed : ∀ first, closed opened (c :: first) = closed opened' first)
    (hcomma : ¬(c = ',' ∧ opened = [])) :
    extendFirst c <$> read = .ok pieces ↔ Pieces opened (c :: rest) pieces := by
  rw [map_eq_ok, pieces_cons]
  constructor
  · rintro ⟨found, hfound, rfl⟩
    obtain ⟨first, more, rfl, htext, hfirst, hmore⟩ := (hread found).mp hfound
    exact .inr ⟨first, more, rfl, by rw [hclosed, hfirst], htext, hmore⟩
  · rintro (⟨hc, ho, -⟩ | ⟨first, more, rfl, hfirst, htext, hmore⟩)
    · exact absurd ⟨hc, ho⟩ hcomma
    · rw [hclosed] at hfirst
      exact ⟨first :: more, (hread _).mpr ⟨first, more, rfl, htext, hfirst, hmore⟩, rfl⟩

end Cut

theorem cut_eq_ok {position : Nat} {opened : List (Char × Nat)} {text : List Char}
    {pieces : List (List Char)} :
    cut position opened text = .ok pieces ↔ Pieces (opened.map (·.1)) text pieces := by
  induction text generalizing position opened pieces with
  | nil =>
    rw [pieces_nil, cut.eq_def]
    cases opened with
    | nil => exact ⟨fun h => ⟨rfl, (Except.ok.inj h).symm⟩, fun h => h.2 ▸ rfl⟩
    | cons top outer => simp
  | cons c rest ih =>
    rw [cut.eq_def]
    dsimp only
    by_cases hopen : c = '[' ∨ c = '<'
    · rw [if_pos hopen]
      refine map_extendFirst_eq_ok (fun _ => ih) (fun first => ?_) fun h => ?_
      · rw [closed_cons, if_pos hopen]
        rfl
      · obtain rfl | rfl := hopen <;> cases h.1
    rw [if_neg hopen]
    by_cases hcomma : c = ',' ∧ opened = []
    · obtain ⟨rfl, rfl⟩ := hcomma
      rw [if_pos ⟨rfl, rfl⟩]
      exact map_cons_nil_eq_ok fun _ => ih
    rw [if_neg hcomma]
    have hcomma' : ¬(c = ',' ∧ opened.map (·.1) = []) := by simpa using hcomma
    by_cases hclose : c = ']' ∨ c = '>'
    · rw [if_pos hclose]
      have hc : c ≠ ',' := by
        rintro rfl
        obtain h | h := hclose <;> cases h
      cases opened with
      | nil =>
        refine iff_of_false (by simp) (not_pieces_cons (fun first => ?_) hc)
        rw [closed_cons, if_neg hopen, if_neg hcomma', if_pos hclose]
        rfl
      | cons top outer =>
        dsimp only
        by_cases hcloses : closes top.1 c = true
        · rw [if_pos hcloses]
          refine map_extendFirst_eq_ok (fun _ => ih) (fun first => ?_) hcomma'
          rw [closed_cons, if_neg hopen, if_neg hcomma', if_pos hclose]
          simp [hcloses]
        · rw [if_neg hcloses]
          refine iff_of_false (by simp) (not_pieces_cons (fun first => ?_) hc)
          rw [closed_cons, if_neg hopen, if_neg hcomma', if_pos hclose]
          simp [hcloses]
    · rw [if_neg hclose]
      refine map_extendFirst_eq_ok (fun _ => ih) (fun first => ?_) hcomma'
      rw [closed_cons, if_neg hopen, if_neg hcomma', if_neg hclose]

end TickCircuit.Grammar
