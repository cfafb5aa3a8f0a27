import Mathlib.Data.List.Chain
import Mathlib.Data.List.DropRight
import TickCircuit.Text.Blank
import TickCircuit.Text.Split
/-!
Trimmed, split and joined texts. Main statements: blanks around a text make no difference to what
is left of it (`trim_append`), a text is split where the mark first begins
(`splitOnce_append_of_not_mem`), and what was joined is split into the same pieces
(`splitEvery_intercalate`).
-/
namespace TickCircuit.Text

theorem trimLeft_of_isBlank {s : List Char} (h : ∀ c, s.head? = some c → isBlank c = false) :
    trimLeft s = s := by
  refine List.dropWhile_eq_self_iff.mpr fun hl => ?_
  have hhead := h s[0] (List.head?_eq_getElem? ▸ List.getElem?_eq_getElem hl)
  simp [hhead]

theorem trim_of_ends {s : List Char} (hhead : ∀ c, s.head? = some c → isBlank c = false)
    (hlast : ∀ c, s.getLast? = some c → isBlank c = false) : trim s = s := by
  have hright : trimLeft s.reverse = s.reverse :=
    trimLeft_of_isBlank fun c hc => hlast c (by rwa [← List.head?_reverse])
  rw [trim, trimLeft_of_isBlank hhead, trimRight]
  rw [trimLeft] at hright
  rw [hright, List.reverse_reverse]

theorem trim_of_isBlank {s : List Char} (h : ∀ c ∈ s, isBlank c = false) : trim s = s :=
  trim_of_ends (fun c hc => h c (List.mem_of_head? hc)) fun c hc => h c (List.mem_of_getLast? hc)

theorem isBlank_of_head?_trim {s : List Char} {c : Char} (h : (trim s).head? = some c) :
    isBlank c = false := by
  -- what is cut off at the right does not change where the text begins
  have hprefix : trim s <+: trimLeft s := by
    rw [trim, trimRight, ← List.reverse_suffix, List.reverse_reverse]
    exact List.dropWhile_suffix _
  obtain ⟨rest, hrest⟩ := hprefix
  have hhead : (trimLeft s).head? = some c := by
    rw [← hrest, List.head?_append, h]
    rfl
  have hnot := List.head?_dropWhile_not isBlank s
  rw [← trimLeft, hhead] at hnot
  simpa using hnot

theorem isBlank_of_getLast?_trim {s : List Char} {c : Char} (h : (trim s).getLast? = some c) :
    isBlank c = false := by
  have hnot := List.head?_dropWhile_not isBlank (trimLeft s).reverse
  rw [trim, trimRight, List.getLast?_reverse] at h
  rw [h] at hnot
  simpa using hnot

theorem trim_trim (s : List Char) : trim (trim s) = trim s :=
  trim_of_ends (fun _ => isBlank_of_head?_trim) fun _ => isBlank_of_getLast?_trim

def Blank (s : List Char) : Prop := ∀ c ∈ s, isBlank c = true

theorem Blank.nil : Blank [] := nofun

theorem Blank.append {s t : List Char} (hs : Blank s) (ht : Blank t) : Blank (s ++ t) :=
  fun c hc => (List.mem_append.mp hc).elim (hs c) (ht c)

theorem Blank.not_mem {s : List Char} (h : Blank s) {c : Char} (hc : isBlank c = false) : c ∉ s :=
  fun hm => by simp [h c hm] at hc

theorem Blank.trimLeft_append {s : List Char} (h : Blank s) (t : List Char) :
    trimLeft (s ++ t) = trimLeft t :=
  List.dropWhile_append_of_pos h

theorem Blank.trimRight_append {s : List Char} (h : Blank s) (t : List Char) :
    trimRight (t ++ s) = trimRight t := by
  have hr : Blank s.reverse := fun c hc => h c (List.mem_reverse.mp hc)
  have hl := hr.trimLeft_append t.reverse
  rw [trimLeft, trimLeft] at hl
  rw [trimRight, trimRight, List.reverse_append, hl]

theorem trimLeft_eq_nil {s : List Char} : trimLeft s = [] ↔ Blank s := List.dropWhile_eq_nil_iff

theorem trim_append {before after : List Char} (hb : Blank before) (ha : Blank after)
    (s : List Char) : trim (before ++ s ++ after) = trim s := by
  rw [trim, List.append_assoc, hb.trimLeft_append, trim]
  by_cases hs : Blank s
  · rw [trimLeft_eq_nil.mpr hs, trimLeft_eq_nil.mpr (hs.append ha)]
  · have hne : (trimLeft s).isEmpty = false := by
      simpa [List.isEmpty_eq_false_iff] using mt trimLeft_eq_nil.mp hs
    rw [trimLeft, List.dropWhile_append, ← trimLeft, if_neg (by simp [hne]), ha.trimRight_append]

theorem exists_trim (s : List Char) :
    ∃ before after, Blank before ∧ Blank after ∧ s = before ++ trim s ++ after := by
  have hl : s = s.takeWhile isBlank ++ trimLeft s := List.takeWhile_append_dropWhile.symm
  have hr : trimLeft s =
      trim s ++ ((trimLeft s).reverse.takeWhile isBlank).reverse := by
    rw [trim, trimRight, ← List.reverse_append, List.takeWhile_append_dropWhile,
      List.reverse_reverse]
  refine ⟨s.takeWhile isBlank, ((trimLeft s).reverse.takeWhile isBlank).reverse, ?_, ?_, ?_⟩
  · exact fun c hc => List.mem_takeWhile_imp hc
  · exact fun c hc => List.mem_takeWhile_imp (List.mem_reverse.mp hc)
  · rw [List.append_assoc, ← hr, ← hl]

theorem isInfix_trim (s : List Char) : trim s <:+: s := by
  obtain ⟨before, after, -, -, hs⟩ := exists_trim s
  exact ⟨before, after, hs.symm⟩

theorem trim_eq_nil {s : List Char} : trim s = [] ↔ Blank s := by
  constructor
  · intro h
    obtain ⟨before, after, hb, ha, hs⟩ := exists_trim s
    rw [h, List.append_nil] at hs
    exact hs ▸ hb.append ha
  · intro h
    have ht := trim_append h Blank.nil []
    rwa [List.append_nil, List.append_nil] at ht

def Padded (s text : List Char) : Prop :=
  ∃ before after, Blank before ∧ Blank after ∧ text = before ++ s ++ after

theorem padded_self (s : List Char) : Padded s s := ⟨[], [], .nil, .nil, by simp⟩

theorem padded_trim (s : List Char) : Padded (trim s) s := exists_trim s

theorem padded_space (s : List Char) : Padded s (' ' :: s) :=
  ⟨[' '], [], by simp [Blank, isBlank], .nil, by simp⟩

theorem Padded.trim_eq {s text : List Char} (h : Padded s text) : trim text = trim s := by
  obtain ⟨before, after, hb, ha, rfl⟩ := h
  exact trim_append hb ha s

theorem Padded.blank_iff {s text : List Char} (h : Padded s text) : Blank text ↔ Blank s := by
  rw [← trim_eq_nil, ← trim_eq_nil, h.trim_eq]

theorem Padded.trans {s t u : List Char} (hs : Padded s t) (ht : Padded t u) : Padded s u := by
  obtain ⟨before, after, hb, ha, rfl⟩ := hs
  obtain ⟨before', after', hb', ha', rfl⟩ := ht
  exact ⟨before' ++ before, after ++ after', hb'.append hb, ha.append ha', by simp⟩

theorem Padded.mem_iff {s text : List Char} (h : Padded s text) {c : Char}
    (hc : isBlank c = false) : c ∈ text ↔ c ∈ s := by
  obtain ⟨before, after, hb, ha, rfl⟩ := h
  simp [hb.not_mem hc, ha.not_mem hc]

theorem trim_append_append {s t before after : List Char} (hbefore : Padded s before)
    (hafter : Padded t after) (hs : s ≠ []) (hs' : trim s = s) (ht : t ≠ []) (ht' : trim t = t)
    (mark : List Char) : ∃ before' after', trim (before ++ mark ++ after) =
      before' ++ mark ++ after' ∧ Padded s before' ∧ Padded t after' := by
  obtain ⟨left, inner, hleft, hinner, rfl⟩ := hbefore
  obtain ⟨inner', right, hinner', hright, rfl⟩ := hafter
  refine ⟨s ++ inner, inner' ++ t, ?_, ⟨[], inner, .nil, hinner, rfl⟩,
    ⟨inner', [], hinner', .nil, by simp⟩⟩
  have hends : trim (s ++ inner ++ mark ++ (inner' ++ t)) = s ++ inner ++ mark ++ (inner' ++ t) := by
    refine trim_of_ends (fun c hc => ?_) fun c hc => ?_
    · simp only [List.append_assoc, List.head?_append_of_ne_nil _ hs] at hc
      exact isBlank_of_head?_trim (hs' ▸ hc)
    · rw [← List.append_assoc, List.getLast?_append_of_ne_nil _ ht] at hc
      exact isBlank_of_getLast?_trim (ht' ▸ hc)
  have hassoc : left ++ s ++ inner ++ mark ++ (inner' ++ t ++ right) =
      left ++ (s ++ inner ++ mark ++ (inner' ++ t)) ++ right := by simp
  rw [hassoc, trim_append hleft hright, hends]

theorem not_mem_of_splitOnce {c : Char} {s before after : List Char}
    (h : splitOnce [c] s = some (before, after)) : c ∉ before := by
  induction s generalizing before with
  | nil => cases h
  | cons x s ih =>
    rw [splitOnce] at h
    by_cases hx : c = x
    · rw [if_pos (by simp [List.isPrefixOf, hx])] at h
      cases h
      exact List.not_mem_nil
    · rw [if_neg (by simp [List.isPrefixOf, hx])] at h
      obtain ⟨⟨b, a⟩, hs, he⟩ := Option.map_eq_some_iff.mp h
      cases he
      simp [hx, ih hs]

theorem not_mem_of_splitOnce_eq_none {c : Char} {s : List Char} (h : splitOnce [c] s = none) :
    c ∉ s := by
  induction s with
  | nil => exact List.not_mem_nil
  | cons x s ih =>
    rw [splitOnce] at h
    split at h
    · cases h
    next hno =>
      have hx : c ≠ x := by simpa [List.isPrefixOf] using hno
      simp [hx, ih (Option.map_eq_none_iff.mp h)]

theorem of_getD_splitOnce (c : Char) (s rest : List Char) :
    c ∉ ((splitOnce [c] s).getD (s, rest)).1 ∧ ((splitOnce [c] s).getD (s, rest)).1 <:+: s := by
  cases h : splitOnce [c] s with
  | none => exact ⟨not_mem_of_splitOnce_eq_none h, List.infix_rfl⟩
  | some r => exact ⟨not_mem_of_splitOnce h, [], [c] ++ r.2, by simp [splitOnce_append h]⟩

theorem splitOnce_of_not_mem {c : Char} {mark s : List Char} (h : c ∉ s) :
    splitOnce (c :: mark) s = none := by
  induction s with
  | nil => rfl
  | cons x s ih =>
    have hx : c ≠ x := fun he => h (he ▸ List.mem_cons_self)
    have hs := ih fun hm => h (List.mem_cons_of_mem _ hm)
    simp [splitOnce, List.isPrefixOf, hx, hs]

theorem splitOnce_append_of_not_mem {c : Char} {before : List Char} (h : c ∉ before)
    (mark after : List Char) :
    splitOnce (c :: mark) (before ++ (c :: mark) ++ after) = some (before, after) := by
  induction before with
  | nil =>
    have hprefix : (c :: mark).isPrefixOf (c :: (mark ++ after)) = true :=
      List.isPrefixOf_iff_prefix.mpr ⟨after, rfl⟩
    simp [splitOnce, hprefix]
  | cons x before ih =>
    have hx : c ≠ x := fun he => h (he ▸ List.mem_cons_self)
    have hs := ih fun hm => h (List.mem_cons_of_mem _ hm)
    simp only [List.cons_append, splitOnce, List.isPrefixOf, beq_false_of_ne hx]
    rw [hs]
    rfl

/-- Nowhere in the text does `d` stand right after `c`. -/
def Apart (c d : Char) (s : List Char) : Prop := s.IsChain fun x y => x = c → y ≠ d

theorem apart_of_not_mem {c d : Char} {s : List Char} (h : c ∉ s) : Apart c d s := by
  induction s with
  | nil => exact .nil
  | cons x s ih =>
    refine List.isChain_cons.mpr ⟨fun y _ hx => ?_, ih fun hc => h (List.mem_cons_of_mem _ hc)⟩
    exact absurd (hx ▸ List.mem_cons_self) h

theorem Apart.of_infix {c d : Char} {s t : List Char} (h : Apart c d t) (hs : s <:+: t) :
    Apart c d s := List.IsChain.infix h hs

theorem Apart.append {c d : Char} {s t : List Char} (hs : Apart c d s) (ht : Apart c d t)
    (hd : t.head? ≠ some d) : Apart c d (s ++ t) :=
  List.isChain_append.mpr ⟨hs, ht, fun _ _ _ hy _ he => hd (he ▸ hy)⟩

theorem apart_of_splitOnce {c d : Char} {s before after : List Char}
    (h : splitOnce [c, d] s = some (before, after)) : Apart c d before := by
  induction s generalizing before with
  | nil => cases h
  | cons x s ih =>
    rw [splitOnce] at h
    split at h
    · cases h
      exact .nil
    next hno =>
      obtain ⟨⟨b, a⟩, hs, he⟩ := Option.map_eq_some_iff.mp h
      cases he
      refine List.isChain_cons.mpr ⟨fun y hy hx hd => hno ?_, ih hs⟩
      obtain ⟨tail, rfl⟩ := List.head?_eq_some_iff.mp hy
      rw [splitOnce_append hs, hx, hd]
      simp [List.isPrefixOf]

/-- A mark of two characters may begin with one that stands in the text as well. -/
theorem splitOnce_append_of_apart {c d : Char} (hcd : c ≠ d) {before : List Char}
    (h : Apart c d before) (after : List Char) :
    splitOnce [c, d] (before ++ [c, d] ++ after) = some (before, after) := by
  induction before with
  | nil => simp [splitOnce, List.isPrefixOf]
  | cons x before ih =>
    obtain ⟨hx, hrest⟩ := List.isChain_cons.mp h
    have hno : [c, d].isPrefixOf (x :: (before ++ [c, d] ++ after)) = false := by
      cases before with
      | nil => simp [List.isPrefixOf, hcd.symm]
      | cons y before =>
        simp only [List.cons_append, List.isPrefixOf, Bool.and_eq_false_iff, beq_eq_false_iff_ne]
        by_cases hc : x = c
        · exact .inr (.inl (hx y rfl hc).symm)
        · exact .inl (Ne.symm hc)
    rw [List.cons_append, List.cons_append, splitOnce, hno, ih hrest]
    rfl

theorem splitEvery_of_not_mem {c : Char} {s : List Char} (h : c ∉ s) : splitEvery c s = [s] := by
  induction s with
  | nil => rfl
  | cons x s ih =>
    have hx : x ≠ c := fun he => h (he ▸ List.mem_cons_self)
    have hs := ih fun hm => h (List.mem_cons_of_mem _ hm)
    simp [splitEvery, hx, hs]

theorem splitEvery_append {c : Char} {piece : List Char} (h : c ∉ piece) (rest : List Char) :
    splitEvery c (piece ++ c :: rest) = piece :: splitEvery c rest := by
  induction piece with
  | nil => simp [splitEvery]
  | cons x piece ih =>
    have hx : x ≠ c := fun he => h (he ▸ List.mem_cons_self)
    have hs := ih fun hm => h (List.mem_cons_of_mem _ hm)
    simp [splitEvery, hx, hs]

theorem splitEvery_intercalate {c : Char} {pieces : List (List Char)} (hne : pieces ≠ [])
    (h : ∀ piece ∈ pieces, c ∉ piece) : splitEvery c (intercalate [c] pieces) = pieces := by
  induction pieces with
  | nil => exact absurd rfl hne
  | cons piece pieces ih =>
    have hpiece := h piece List.mem_cons_self
    cases pieces with
    | nil => exact splitEvery_of_not_mem hpiece
    | cons next pieces =>
      have hrest := ih (by simp) fun p hp => h p (List.mem_cons_of_mem _ hp)
      rw [intercalate, List.append_assoc, List.singleton_append, splitEvery_append hpiece, hrest]
      nofun

theorem mem_intercalate {mark piece : List Char} {pieces : List (List Char)} (h : piece ∈ pieces)
    {c : Char} (hc : c ∈ piece) : c ∈ intercalate mark pieces := by
  induction pieces with
  | nil => cases h
  | cons first pieces ih =>
    cases pieces with
    | nil =>
      cases List.mem_singleton.mp h
      exact hc
    | cons next pieces =>
      rw [intercalate, List.append_assoc, List.mem_append]
      · obtain rfl | h := List.mem_cons.mp h
        · exact .inl hc
        · exact .inr (List.mem_append_right _ (ih h))
      · nofun

theorem not_mem_intercalate {c : Char} {mark : List Char} {pieces : List (List Char)}
    (hmark : c ∉ mark) (h : ∀ piece ∈ pieces, c ∉ piece) : c ∉ intercalate mark pieces := by
  induction pieces with
  | nil => exact List.not_mem_nil
  | cons piece pieces ih =>
    have hpiece := h piece List.mem_cons_self
    have hrest := ih fun p hp => h p (List.mem_cons_of_mem _ hp)
    cases pieces with
    | nil => exact hpiece
    | cons next pieces =>
      rw [intercalate]
      simp [hmark, hpiece, hrest]
      nofun

end TickCircuit.Text
