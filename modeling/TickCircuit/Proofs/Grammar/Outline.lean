import TickCircuit.Proofs.Grammar.Brackets
import TickCircuit.Proofs.Results
/-!
One level of a text. Main statements: a body that is laid out with its label and any blanks has the
outline of the body (`Laid.outline`), and a text with an outline is laid out so (`outline_eq_ok`).
-/
namespace TickCircuit.Grammar
open Text

def Listed (pieces : List (List Char)) (inner : List Char) : Prop :=
  (pieces = [] ∧ Blank inner) ∨ (pieces ≠ [] ∧ inner = intercalate [','] pieces)

theorem Listed.eq_intercalate {pieces : List (List Char)} {inner : List Char}
    (h : Listed pieces inner) (hne : pieces ≠ []) : inner = intercalate [','] pieces :=
  h.elim (fun h => absurd h.1 hne) fun h => h.2

theorem listed_intercalate (pieces : List (List Char)) :
    Listed pieces (intercalate [','] pieces) := by
  by_cases h : pieces = []
  · subst h
    exact .inl ⟨rfl, .nil⟩
  · exact .inr ⟨h, rfl⟩

theorem Listed.not_blank {pieces : List (List Char)} {inner : List Char} (h : Listed pieces inner)
    (hpieces : ∀ piece ∈ pieces, ¬Blank piece) (hblank : Blank inner) : pieces = [] := by
  obtain ⟨rfl, -⟩ | ⟨hne, rfl⟩ := h
  · rfl
  obtain ⟨piece, more, rfl⟩ := List.exists_cons_of_ne_nil hne
  refine absurd (fun c hc => hblank c ?_) (hpieces piece List.mem_cons_self)
  exact mem_intercalate List.mem_cons_self hc

theorem items_eq_ok {inner : List Char} {pieces : List (List Char)} :
    items inner = .ok pieces ↔ Listed pieces inner ∧ (Blank inner → pieces = []) ∧
      ∀ piece ∈ pieces, closed [] piece = true := by
  unfold items
  split
  next h =>
    have hblank := trim_eq_nil.mp h
    constructor
    · intro hp
      cases hp
      exact ⟨.inl ⟨rfl, hblank⟩, fun _ => rfl, nofun⟩
    · intro hp
      rw [hp.2.1 hblank]
  next h =>
    have hblank : ¬Blank inner := mt trim_eq_nil.mpr h
    rw [mapError_eq_ok, cut_eq_ok]
    constructor
    · intro hp
      obtain ⟨first, more, rfl, htext, hfirst, hmore⟩ := hp
      refine ⟨.inr ⟨nofun, htext⟩, fun hb => absurd hb hblank, fun piece hpiece => ?_⟩
      obtain rfl | hpiece := List.mem_cons.mp hpiece
      · exact hfirst
      · exact hmore piece hpiece
    · intro hp
      obtain ⟨⟨-, hb⟩ | ⟨hne, htext⟩, -, hclosed⟩ := hp
      · exact absurd hb hblank
      · obtain ⟨first, more, rfl⟩ := List.exists_cons_of_ne_nil hne
        exact ⟨first, more, rfl, htext, hclosed first List.mem_cons_self,
          fun piece hpiece => hclosed piece (List.mem_cons_of_mem _ hpiece)⟩

theorem closed_around {pieces : List (List Char)} (h : ∀ piece ∈ pieces, closed [] piece = true)
    {opener closer : Char} (hcloses : closes opener closer = true) :
    closed [] (opener :: intercalate [','] pieces ++ [closer]) = true := by
  refine closed_bracketed hcloses ?_
  rw [closed_intercalate h, closed_closer hcloses]

theorem Listed.closed {pieces : List (List Char)} {inner : List Char} (h : Listed pieces inner)
    (hpieces : ∀ piece ∈ pieces, closed [] piece = true) {opener closer : Char}
    (hcloses : closes opener closer = true) : closed [] (opener :: inner ++ [closer]) = true := by
  obtain ⟨-, hblank⟩ | ⟨-, rfl⟩ := h
  · refine closed_bracketed hcloses ?_
    rw [closed_blank_append hblank, closed_closer hcloses]
  · exact closed_around hpieces hcloses

theorem dropLast?_eq_some {c : Char} {s t : List Char} : dropLast? c s = some t ↔ s = t ++ [c] := by
  unfold dropLast?
  constructor
  · intro h
    split at h
    next hl =>
      cases h
      exact (List.dropLast_append_getLast? c hl).symm
    next => cases h
  · rintro rfl
    simp

theorem outlineBody_list (inner : List Char) :
    outlineBody ('[' :: inner ++ [']']) = .list <$> items inner := by
  rw [List.cons_append, outlineBody, dropLast?_eq_some.mpr rfl]

theorem outlineBody_times {inner item : List Char} {count : Option (List Char)}
    (h : items inner = .ok (item :: count.toList)) :
    outlineBody ('<' :: inner ++ ['>']) = .ok (.times item count) := by
  rw [List.cons_append, outlineBody, dropLast?_eq_some.mpr rfl]
  dsimp only
  rw [h]
  cases count <;> rfl

theorem outlineBody_eq_list {body : List Char} {pieces : List (List Char)} :
    outlineBody body = .ok (.list pieces) ↔
      ∃ inner, body = '[' :: inner ++ [']'] ∧ items inner = .ok pieces := by
  constructor
  · intro h
    unfold outlineBody at h
    split at h
    · split at h
      · cases h
      next inner hd =>
        obtain ⟨found, hi, he⟩ := map_eq_ok.mp h
        cases he
        exact ⟨inner, congrArg _ (dropLast?_eq_some.mp hd), hi⟩
    · split at h
      · cases h
      · split at h <;> cases h
    · cases h
  · rintro ⟨inner, rfl, hi⟩
    rw [outlineBody_list, hi]
    rfl

theorem outlineBody_eq_times {body item : List Char} {count : Option (List Char)} :
    outlineBody body = .ok (.times item count) ↔
      ∃ inner, body = '<' :: inner ++ ['>'] ∧ items inner = .ok (item :: count.toList) := by
  constructor
  · intro h
    unfold outlineBody at h
    split at h
    · split at h
      · cases h
      · obtain ⟨found, -, he⟩ := map_eq_ok.mp h
        cases he
    · split at h
      · cases h
      next inner hd =>
        refine ⟨inner, congrArg _ (dropLast?_eq_some.mp hd), ?_⟩
        split at h
        · cases h
        · cases h
          assumption
        · cases h
          assumption
        · cases h
    · cases h
  · rintro ⟨inner, rfl, hi⟩
    exact outlineBody_times hi

/-- A text that can stand as a label: below the root, a comma would end it. -/
structure IsLabel (root : Bool) (label : List Char) : Prop where
  ne_nil : label ≠ []
  trim_eq : trim label = label
  bracket : ∀ c ∈ label, isBracket c = false
  colon : ':' ∉ label
  comma : root = false → ',' ∉ label

theorem IsLabel.bracket_of_padded {root : Bool} {label text : List Char} (h : IsLabel root label)
    (htext : Padded label text) : ∀ c ∈ text, isBracket c = false := by
  intro c hc
  by_cases hblank : isBlank c = true
  · exact isBracket_of_isBlank hblank
  · rw [Bool.not_eq_true] at hblank
    exact h.bracket c ((htext.mem_iff hblank).mp hc)

def Labelled (root : Bool) (label : Option String) : Prop :=
  ∀ l, label = some l → IsLabel root l.toList

theorem Labelled.none (root : Bool) : Labelled root Option.none := nofun

/-- A body with its label before it and any blanks around both. -/
inductive Laid (root : Bool) (body : List Char) : Option String → List Char → Prop
  | plain {text : List Char} : Padded body text → Laid root body none text
  | labelled {label : String} {before after : List Char} : IsLabel root label.toList →
    Padded label.toList before → Padded body after →
    Laid root body (some label) (before ++ ':' :: after)

theorem Laid.isLabel {root : Bool} {body text : List Char} {label : Option String}
    (h : Laid root body label text) : Labelled root label := by
  cases h with
  | plain => nofun
  | labelled hlabel =>
    rintro l ⟨⟩
    exact hlabel

theorem laid_print {root : Bool} {label : Option String} (h : Labelled root label)
    (body : List Char) : Laid root body label (printLabel label ++ body) := by
  cases label with
  | none => exact .plain (padded_self body)
  | some l =>
    have hl := Laid.labelled (h l rfl) (padded_self l.toList) (padded_space body)
    rwa [printLabel, List.append_assoc]

structure IsBody (body : List Char) : Prop where
  ne_nil : body ≠ []
  trim_eq : trim body = body
  splitLabel_eq : splitLabel body = (none, body)

theorem isBody_bracketed {opener closer : Char} (h : closes opener closer = true)
    (inner : List Char) : IsBody (opener :: inner ++ [closer]) := by
  have hends : isBlank opener = false ∧ isBlank closer = false ∧ isBracket opener = true ∧
      opener ≠ ':' := by
    simp only [closes, Bool.or_eq_true, Bool.and_eq_true, beq_iff_eq] at h
    obtain ⟨rfl, rfl⟩ | ⟨rfl, rfl⟩ := h <;> decide
  obtain ⟨hopener, hcloser, hbracket, hcolon⟩ := hends
  refine ⟨List.cons_ne_nil _ _, trim_of_ends ?_ ?_, ?_⟩
  · rintro c ⟨⟩
    exact hopener
  · intro c hc
    rw [List.getLast?_concat] at hc
    cases hc
    exact hcloser
  · -- a label before the first colon would begin with the bracket
    unfold splitLabel
    split
    next before after hs =>
      rw [List.cons_append, splitOnce, if_neg (by simp [List.isPrefixOf, hcolon.symm])] at hs
      obtain ⟨⟨b, a⟩, -, he⟩ := Option.map_eq_some_iff.mp hs
      cases he
      rw [if_neg (by simp [hbracket])]
    next => rfl

theorem splitLabel_cases (text : List Char) : splitLabel text = (none, text) ∨
    ∃ before after, splitLabel text = (some (String.ofList (trim before)), trim after) ∧
      text = before ++ ':' :: after ∧ ':' ∉ before ∧ trim before ≠ [] ∧
      ∀ c ∈ before, isBracket c = false := by
  unfold splitLabel
  split
  next before after h =>
    split
    next hb =>
      have htext := splitOnce_append h
      rw [List.append_assoc] at htext
      have hbracket : ∀ c ∈ before, isBracket c = false := by simpa using hb.2
      exact .inr ⟨before, after, rfl, htext, not_mem_of_splitOnce h, hb.1, hbracket⟩
    next => exact .inl rfl
  next => exact .inl rfl

theorem Laid.outline {root : Bool} {body text : List Char} {label : Option String}
    (h : Laid root body label text) (hbody : IsBody body) :
    outline text = (fun o => (label, body, o)) <$> outlineBody body := by
  cases h with
  | plain htext =>
    rw [Grammar.outline, htext.trim_eq, hbody.trim_eq, if_neg hbody.ne_nil, hbody.splitLabel_eq]
    exact if_neg hbody.ne_nil
  | @labelled label before after hlabel hbefore hafter =>
    obtain ⟨before, after, htrim, hbefore, hafter⟩ := trim_append_append hbefore hafter
      hlabel.ne_nil hlabel.trim_eq hbody.ne_nil hbody.trim_eq [':']
    have hne : before ++ [':'] ++ after ≠ [] := by simp
    have hcolon : ':' ∉ before := mt (hbefore.mem_iff rfl).mp hlabel.colon
    have hbracket : before.any isBracket = false :=
      List.any_eq_false.mpr fun c hc => by simp [hlabel.bracket_of_padded hbefore c hc]
    have hsplit : splitLabel (before ++ [':'] ++ after) = (some label, body) := by
      rw [splitLabel, splitOnce_append_of_not_mem hcolon]
      dsimp only
      rw [hbefore.trim_eq, hlabel.trim_eq, hafter.trim_eq, hbody.trim_eq,
        if_pos ⟨hlabel.ne_nil, by simp [hbracket]⟩, String.ofList_toList]
    rw [← List.singleton_append, ← List.append_assoc, Grammar.outline, htrim, if_neg hne, hsplit]
    exact if_neg hbody.ne_nil

theorem Laid.outline_eq_ok {root : Bool} {body text : List Char} {label : Option String}
    {o : Outline} (h : Laid root body label text) (hbody : IsBody body)
    (ho : outlineBody body = .ok o) : Grammar.outline text = .ok (label, body, o) := by
  rw [h.outline hbody, ho]
  rfl

theorem Laid.outline_list {root : Bool} {inner text : List Char} {label : Option String}
    {pieces : List (List Char)} (h : Laid root ('[' :: inner ++ [']']) label text)
    (hlisted : Listed pieces inner) (hblank : ∀ piece ∈ pieces, ¬Blank piece)
    (hclosed : ∀ piece ∈ pieces, Grammar.closed [] piece = true) :
    Grammar.outline text = .ok (label, '[' :: inner ++ [']'], .list pieces) := by
  have hitems := items_eq_ok.mpr ⟨hlisted, hlisted.not_blank hblank, hclosed⟩
  exact h.outline_eq_ok (isBody_bracketed rfl inner) (outlineBody_eq_list.mpr ⟨inner, rfl, hitems⟩)

theorem Laid.outline_times {root : Bool} {item text : List Char} {label : Option String}
    (count : Option (List Char))
    (h : Laid root ('<' :: intercalate [','] (item :: count.toList) ++ ['>']) label text)
    (hblank : ¬Blank item) (hclosed : ∀ piece ∈ item :: count.toList, Grammar.closed [] piece = true) :
    Grammar.outline text = .ok
      (label, '<' :: intercalate [','] (item :: count.toList) ++ ['>'], .times item count) := by
  have hinner : ¬Blank (intercalate [','] (item :: count.toList)) := fun hb =>
    hblank fun c hc => hb c (mem_intercalate List.mem_cons_self hc)
  have hitems := items_eq_ok.mpr
    ⟨listed_intercalate _, fun hb => absurd hb hinner, hclosed⟩
  exact h.outline_eq_ok (isBody_bracketed rfl _) (outlineBody_eq_times.mpr ⟨_, rfl, hitems⟩)

theorem closed_of_padded {s text : List Char} (h : Padded s text) (hs : closed [] s = true) :
    closed [] text = true := by
  obtain ⟨before, after, hb, ha, rfl⟩ := h
  have hafter := closed_blank_append ha [] []
  rw [List.append_nil] at hafter
  have hrest := closed_append hs [] after
  rw [List.nil_append] at hrest
  rw [List.append_assoc, closed_blank_append hb, hrest, hafter]
  rfl

/-- Below the root, a closed body is laid out in a closed text. -/
theorem Laid.closed {body text : List Char} {label : Option String}
    (h : Laid false body label text) (hbody : closed [] body = true) : closed [] text = true := by
  cases h with
  | plain htext => exact closed_of_padded htext hbody
  | @labelled label before after hlabel hbefore hafter =>
    have hplain : ∀ c ∈ before ++ [':'], isBracket c = false := by
      intro c hc
      obtain hc | hc := List.mem_append.mp hc
      · exact hlabel.bracket_of_padded hbefore c hc
      · cases List.mem_singleton.mp hc
        rfl
    have hcomma : ',' ∉ before ++ [':'] := by
      have hbefore' : ',' ∉ before := mt (hbefore.mem_iff rfl).mp (hlabel.comma rfl)
      simp [hbefore']
    rw [← List.singleton_append, ← List.append_assoc, closed_plain_append hplain fun _ => hcomma]
    exact closed_of_padded hafter hbody

theorem laid_of_outline {root : Bool} {text body : List Char} {label : Option String} {o : Outline}
    (h : Grammar.outline text = .ok (label, body, o))
    (hclosed : root = false → Grammar.closed [] text = true) :
    Laid root body label text ∧ outlineBody body = .ok o := by
  unfold Grammar.outline at h
  split at h
  · cases h
  dsimp only at h
  split at h
  · cases h
  obtain ⟨o', ho, he⟩ := map_eq_ok.mp h
  obtain hsplit | ⟨before, after, hsplit, htrim, hcolon, hne, hbracket⟩ :=
    splitLabel_cases (trim text)
  · rw [hsplit] at ho he
    cases he
    exact ⟨.plain (padded_trim text), ho⟩
  · rw [hsplit] at ho he
    cases he
    obtain ⟨left, right, hleft, hright, htext⟩ := exists_trim text
    have hlaid : text = left ++ before ++ ':' :: (after ++ right) := by
      rw [htrim] at htext
      simpa using htext
    have hbefore : Padded (trim before) (left ++ before) :=
      (padded_trim before).trans ⟨left, [], hleft, .nil, by simp⟩
    have hafter : Padded (trim after) (after ++ right) :=
      (padded_trim after).trans ⟨[], right, .nil, hright, by simp⟩
    have hmem : ∀ c ∈ trim before, c ∈ before := by
      intro c hc
      obtain ⟨b, a, -, -, hb⟩ := padded_trim before
      rw [hb]
      simp [hc]
    have hplain : ∀ c ∈ left ++ before, isBracket c = false := fun c hc =>
      (List.mem_append.mp hc).elim (fun hc => isBracket_of_isBlank (hleft c hc)) (hbracket c)
    have hlabel : IsLabel root (String.ofList (trim before)).toList := by
      rw [String.toList_ofList]
      refine ⟨hne, trim_trim before, fun c hc => hbracket c (hmem c hc), mt (hmem _) hcolon, ?_⟩
      intro hroot hc
      refine not_mem_of_closed_append hplain (hlaid ▸ hclosed hroot) ?_
      exact List.mem_append_right _ (hmem _ hc)
    rw [hlaid]
    exact ⟨.labelled hlabel (by rwa [String.toList_ofList]) hafter, ho⟩

end TickCircuit.Grammar
