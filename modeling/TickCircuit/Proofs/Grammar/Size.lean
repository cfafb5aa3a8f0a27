import TickCircuit.Proofs.Grammar.Phrase
/-!
How large a phrase is against its text. The parts of a text lie in it one after the other
(`outline_parts_length`). Main statement: a phrase has no more nodes than its text has characters
(`Phrase.size_le_of_parse`).
-/
namespace TickCircuit.Text

theorem length_le_utf8ByteSize (text : String) : text.toList.length ≤ text.utf8ByteSize := by
  have hchars : ∀ chars : List Char, chars.length ≤ (String.ofList chars).utf8ByteSize := by
    intro chars
    induction chars with
    | nil => exact Nat.zero_le _
    | cons c chars ih =>
      have hc := Char.utf8Size_pos c
      rw [String.ofList_cons, String.utf8ByteSize_append, String.utf8ByteSize_singleton,
        List.length_cons]
      omega
  simpa using hchars text.toList

end TickCircuit.Text

namespace TickCircuit.Grammar
open Text

theorem length_flatten_le_intercalate (mark : List Char) (pieces : List (List Char)) :
    pieces.flatten.length ≤ (intercalate mark pieces).length := by
  induction pieces with
  | nil => simp
  | cons piece pieces ih =>
    cases pieces with
    | nil => simp [intercalate]
    | cons next pieces =>
      change (piece ++ (next :: pieces).flatten).length ≤
        (piece ++ mark ++ intercalate mark (next :: pieces)).length
      simp only [List.length_append]
      omega

theorem Listed.length_flatten_le {pieces : List (List Char)} {inner : List Char}
    (h : Listed pieces inner) : pieces.flatten.length ≤ inner.length := by
  obtain ⟨rfl, -⟩ | ⟨-, rfl⟩ := h
  · simp
  · exact length_flatten_le_intercalate [','] pieces

theorem Laid.length_le {root : Bool} {body text : List Char} {label : Option String}
    (h : Laid root body label text) : body.length ≤ text.length := by
  have hpadded : ∀ {text}, Padded body text → body.length ≤ text.length := by
    rintro _ ⟨before, after, -, -, rfl⟩
    simp only [List.length_append]
    omega
  cases h with
  | plain htext => exact hpadded htext
  | labelled _ _ hafter =>
    have hle := hpadded hafter
    simp only [List.length_append, List.length_cons]
    omega

theorem outline_parts_length {text body : List Char} {label : Option String} {o : Outline}
    (h : outline text = .ok (label, body, o)) : o.parts.flatten.length < text.length := by
  obtain ⟨hlaid, hbody⟩ := @laid_of_outline true _ _ _ _ h nofun
  have hle := hlaid.length_le
  cases o with
  | word =>
    cases text with
    | nil => cases h
    | cons c text => simp [Outline.parts]
  | list pieces =>
    obtain ⟨inner, rfl, hitems⟩ := outlineBody_eq_list.mp hbody
    have hinner := (items_eq_ok.mp hitems).1.length_flatten_le
    simp only [List.length_append, List.length_cons] at hle
    rw [Outline.parts]
    omega
  | times item count =>
    obtain ⟨inner, rfl, hitems⟩ := outlineBody_eq_times.mp hbody
    have hinner := (items_eq_ok.mp hitems).1.length_flatten_le
    simp only [List.flatten_cons, List.length_append, List.length_cons] at hle hinner
    simp only [Outline.parts, List.flatten_cons, List.flatten_nil, List.append_nil]
    omega

namespace Phrase

@[elab_as_elim, induction_eliminator]
theorem induct {motive : Phrase → Prop} (word : ∀ label text, motive (.word label text))
    (list : ∀ label text items, (∀ p ∈ items, motive p) → motive (.list label text items))
    (times : ∀ label text item count, motive item → motive (.times label text item count))
    (p : Phrase) : motive p :=
  match p with
  | .word l t => word l t
  | .list l t ps => list l t ps fun p _ => induct word list times p
  | .times l t p n => times l t p n (induct word list times p)

mutual
/-- The words, lists and repetitions of a phrase, as they are written. -/
def size : Phrase → Nat
  | .word .. => 1
  | .list _ _ items => 1 + sizeAll items
  | .times _ _ item _ => 1 + item.size
def sizeAll : List Phrase → Nat
  | [] => 0
  | p :: ps => p.size + sizeAll ps
end

theorem size_le_sizeAll {p : Phrase} {ps : List Phrase} (h : p ∈ ps) : p.size ≤ sizeAll ps := by
  induction ps with
  | nil => cases h
  | cons q ps ih =>
    rw [sizeAll]
    obtain rfl | h := List.mem_cons.mp h
    · exact Nat.le_add_right _ _
    · exact (ih h).trans (Nat.le_add_left _ _)

theorem sizeAll_le_of_mapM {items : List (List Char)} {phrases : List Phrase}
    (h : items.mapM parse = .ok phrases)
    (hitem : ∀ item ∈ items, ∀ p, parse item = .ok p → p.size ≤ item.length) :
    sizeAll phrases ≤ items.flatten.length := by
  induction items generalizing phrases with
  | nil =>
    cases h
    exact Nat.zero_le _
  | cons item items ih =>
    rw [List.mapM_cons] at h
    obtain ⟨p, hp, h⟩ := bind_eq_ok.mp h
    obtain ⟨ps, hps, ⟨⟩⟩ := bind_eq_ok.mp h
    have hfirst := hitem item List.mem_cons_self p hp
    have hrest := ih hps fun item' hitem' => hitem item' (List.mem_cons_of_mem _ hitem')
    rw [sizeAll, List.flatten_cons, List.length_append]
    omega

theorem size_le_of_parse {text : List Char} {p : Phrase} (h : parse text = .ok p) :
    p.size ≤ text.length := by
  rw [parse_eq] at h
  obtain ⟨⟨label, body, o⟩, ho, h⟩ := bind_eq_ok.mp h
  have hparts := outline_parts_length ho
  cases o with
  | word =>
    cases h
    rw [size]
    omega
  | list items =>
    obtain ⟨phrases, hphrases, rfl⟩ := map_eq_ok.mp h
    have hall := sizeAll_le_of_mapM hphrases fun item hitem p hp => by
      have hshorter : item.length < text.length := outline_part_length ho hitem
      exact size_le_of_parse hp
    rw [size]
    rw [Outline.parts] at hparts
    omega
  | times item count =>
    obtain ⟨phrase, hphrase, h⟩ := bind_eq_ok.mp h
    obtain ⟨copies, -, ⟨⟩⟩ := bind_eq_ok.mp h
    have hshorter : item.length < text.length := outline_part_length ho (by simp [Outline.parts])
    have hsize := size_le_of_parse hphrase
    rw [size]
    omega
termination_by text.length

theorem size_le_utf8ByteSize {text : String} {p : Phrase} (h : parse text.toList = .ok p) :
    p.size ≤ text.utf8ByteSize := (size_le_of_parse h).trans (length_le_utf8ByteSize text)

end Phrase
end TickCircuit.Grammar
