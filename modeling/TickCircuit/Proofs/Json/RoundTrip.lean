import Mathlib.Data.List.DropRight
import TickCircuit.Json.Decode
import TickCircuit.Json.Tree
import TickCircuit.Proofs.Json.Scalars
import TickCircuit.Proofs.Results
/-!
Printed documents read back, where the numeral of each number has its value (`ReadsBack`). Main
statement: what is printed is read as its draft (`ofText_pretty`).
-/
namespace TickCircuit.Json
open Text

/-- What a double is written as is the numeral of a number with its value. -/
def ReadsBack (x : Float) : Prop :=
  ∃ numeral n, readNumeral (printFloat x) = some (numeral, []) ∧ numeral.value = some n ∧
    n.toFloat = x

namespace Tree

inductive Readable : Tree → Prop
  | number {x} : ReadsBack x → Readable (.number x)
  | text {s} : Readable (.text s)
  | list {items} : (∀ v ∈ items, Readable v) → Readable (.list items)
  | object {members} : (∀ m ∈ members, Readable m.2) → Readable (.object members)

mutual
/-- What a document is read as after it was printed. -/
def draft : Tree → Draft
  | .number x => .number ((readNumeral (printFloat x)).bind (·.1.value))
  | .text s => .text (some s)
  | .list items => .list (drafts items)
  | .object members => .object (memberDrafts members)
def drafts : List Tree → List Draft
  | [] => []
  | v :: vs => draft v :: drafts vs
def memberDrafts : List (String × Tree) → List (Option String × Draft)
  | [] => []
  | (key, v) :: ms => (some key, draft v) :: memberDrafts ms
end

theorem float_draft {x : Float} (h : ReadsBack x) : Decoder.float (draft (.number x)) = .ok x := by
  obtain ⟨numeral, n, hread, hvalue, rfl⟩ := h
  rw [draft, hread]
  change Decoder.float (.number numeral.value) = _
  rw [hvalue]
  rfl

theorem optional_draft {α : Type} (decode : Decoder α) (t : Tree) :
    Decoder.optional decode t.draft = some <$> decode t.draft := by
  cases t <;> rfl

theorem drafts_eq_map (vs : List Tree) : drafts vs = vs.map draft :=
  eq_map_of_cons drafts rfl (fun _ _ => rfl) vs

theorem memberDrafts_eq_map (ms : List (String × Tree)) :
    memberDrafts ms = ms.map fun (key, v) => (some key, draft v) := by
  induction ms with
  | nil => rfl
  | cons m ms ih => rw [memberDrafts, List.map_cons, ih]

/-- Induction over documents, with one hypothesis for all parts of one. -/
@[elab_as_elim, induction_eliminator]
theorem induct {motive : Tree → Prop} (number : ∀ x, motive (.number x))
    (text : ∀ s, motive (.text s))
    (list : ∀ items, (∀ v ∈ items, motive v) → motive (.list items))
    (object : ∀ members, (∀ m ∈ members, motive m.2) → motive (.object members))
    (t : Tree) : motive t :=
  match t with
  | .number x => number x
  | .text s => text s
  | .list items => list items fun v _ => induct number text list object v
  | .object members => object members fun m _ => induct number text list object m.2
termination_by t
decreasing_by
  · simp only [Tree.list.sizeOf_spec]
    have hlt := List.sizeOf_lt_of_mem ‹v ∈ items›
    omega
  · simp only [Tree.object.sizeOf_spec]
    have hlt := List.sizeOf_lt_of_mem ‹m ∈ members›
    have hsnd : sizeOf m.2 < sizeOf m := by
      cases m
      simp only [Prod.mk.sizeOf_spec]
      omega
    omega

end Tree

namespace Draft

theorem ne_of_numeral {c d : Char} (h : c = '-' ∨ c.isDigit) (hminus : d ≠ '-')
    (hdigit : d.isDigit = false) : c ≠ d := by
  rintro rfl
  obtain h | h := h
  · exact hminus h
  · simp [hdigit] at h

theorem isGap_of_numeral {c : Char} (h : c = '-' ∨ c.isDigit) : isGap c = false := by
  simp only [isGap, Bool.or_eq_false_iff, beq_eq_false_iff_ne]
  refine ⟨⟨⟨?_, ?_⟩, ?_⟩, ?_⟩ <;> exact ne_of_numeral h (by decide) rfl

theorem skipGap_cons {c : Char} (h : isGap c = false) (s : List Char) : skipGap (c :: s) = c :: s := by
  simp [skipGap, h]

theorem skipGap_newLine (depth : Nat) (s : List Char) :
    skipGap (Tree.newLine depth ++ s) = skipGap s := by
  refine List.dropWhile_append_of_pos fun c hc => ?_
  obtain rfl | hc := List.mem_cons.mp hc
  · rfl
  · cases List.eq_of_mem_replicate hc
    rfl

theorem skipGap_skipGap (s : List Char) : skipGap (skipGap s) = skipGap s :=
  List.dropWhile_idempotent isGap s

theorem readValue_skipGap (fuel : Nat) (s : List Char) :
    readValue fuel (skipGap s) = readValue fuel s := by
  cases fuel with
  | zero => rfl
  | succ fuel => rw [readValue, readValue, skipGap_skipGap]

theorem readValue_space (fuel : Nat) (s : List Char) :
    readValue fuel (' ' :: s) = readValue fuel s := by
  rw [← readValue_skipGap, ← readValue_skipGap fuel s]
  rfl

theorem readItems_skipGap (fuel : Nat) (s : List Char) :
    readItems fuel (skipGap s) = readItems fuel s := by
  cases fuel with
  | zero => rfl
  | succ fuel => rw [readItems, readItems, readValue_skipGap]

theorem readMembers_skipGap (fuel : Nat) (s : List Char) :
    readMembers fuel (skipGap s) = readMembers fuel s := by
  cases fuel with
  | zero => rfl
  | succ fuel => rw [readMembers, readMembers, skipGap_skipGap]

theorem readValue_numeral {s after : List Char} {n : Numeral}
    (h : readNumeral s = some (n, after)) (fuel : Nat) :
    readValue (fuel + 1) s = (.number n.value, some after) := by
  obtain ⟨c, t, rfl, hc⟩ := exists_cons_of_readNumeral h
  have hne : ∀ d, d ≠ '-' → d.isDigit = false → ∀ u, c :: t ≠ d :: u := by
    rintro d hminus hdigit u ⟨⟩
    exact ne_of_numeral hc hminus hdigit rfl
  rw [readValue, skipGap_cons (isGap_of_numeral hc)]
  split
  next he => exact absurd he (hne _ (by decide) rfl _)
  next he => exact absurd he (hne _ (by decide) rfl _)
  next he => exact absurd he (hne _ (by decide) rfl _)
  next =>
    rw [readWord, h]
    · exact fun _ => hne _ (by decide) rfl _
    · exact fun _ => hne _ (by decide) rfl _
    · exact fun _ => hne _ (by decide) rfl _

theorem readValue_text (s : String) (fuel : Nat) (rest : List Char) :
    readValue (fuel + 1) (printText s ++ rest) = (.text (some s), some rest) := by
  rw [printText_append, readValue, skipGap_cons rfl]
  simp only [readText_printText]

theorem readValue_list {s t : List Char} {c : Char} (h : skipGap s = c :: t) (hc : c ≠ ']')
    (fuel : Nat) :
    readValue (fuel + 1) ('[' :: s) = (.list (readItems fuel s).1, (readItems fuel s).2) := by
  rw [readValue, skipGap_cons rfl, ← readItems_skipGap fuel s]
  simp only [h]
  split
  next he => exact absurd (List.cons.inj he).1 hc
  next => rfl

theorem readValue_object {s t : List Char} {c : Char} (h : skipGap s = c :: t) (hc : c ≠ '\x7d')
    (fuel : Nat) :
    readValue (fuel + 1) ('\x7b' :: s) = (.object (readMembers fuel s).1, (readMembers fuel s).2) := by
  rw [readValue, skipGap_cons rfl, ← readMembers_skipGap fuel s]
  simp only [h]
  split
  next he => exact absurd (List.cons.inj he).1 hc
  next => rfl

/-- A printed value has been read where its text ends. -/
def Reads (t : Tree) : Prop :=
  ∀ depth fuel rest, (t.print depth).length ≤ fuel → Stops rest →
    readValue fuel (t.print depth ++ rest) = (t.draft, some rest)

theorem reads_number {x : Float} (h : ReadsBack x) : Reads (.number x) := by
  intro depth fuel rest hfuel hrest
  obtain ⟨numeral, n, hread, -, -⟩ := h
  obtain ⟨c, t, ht, -⟩ := exists_cons_of_readNumeral hread
  have hpos : fuel = fuel - 1 + 1 := by
    simp only [Tree.print, ht, List.length_cons] at hfuel
    omega
  rw [Tree.print, hpos, readValue_numeral (readNumeral_append hrest hread), Tree.draft, hread]
  rfl

theorem exists_cons_print {t : Tree} (h : t.Readable) (depth : Nat) :
    ∃ c s, t.print depth = c :: s ∧ isGap c = false ∧ c ≠ ']' ∧ c ≠ '\x7d' := by
  cases h with
  | number hx =>
    obtain ⟨numeral, n, hread, -, -⟩ := hx
    obtain ⟨c, s, hs, hc⟩ := exists_cons_of_readNumeral hread
    exact ⟨c, s, hs, isGap_of_numeral hc, ne_of_numeral hc (by decide) rfl,
      ne_of_numeral hc (by decide) rfl⟩
  | text => exact ⟨'"', _, rfl, by decide⟩
  | @list items _ => cases items <;> exact ⟨'[', _, rfl, by decide⟩
  | @object members _ => cases members <;> exact ⟨'\x7b', _, rfl, by decide⟩

theorem stops_comma (s : List Char) : Stops (',' :: s) := by
  rintro c ⟨⟩
  decide

theorem stops_newLine (depth : Nat) (s : List Char) : Stops (Tree.newLine depth ++ s) := by
  rintro c ⟨⟩
  decide

theorem readItems_newLine (fuel depth : Nat) (s : List Char) :
    readItems fuel (Tree.newLine depth ++ s) = readItems fuel s := by
  rw [← readItems_skipGap, skipGap_newLine, readItems_skipGap]

theorem readMembers_newLine (fuel depth : Nat) (s : List Char) :
    readMembers fuel (Tree.newLine depth ++ s) = readMembers fuel s := by
  rw [← readMembers_skipGap, skipGap_newLine, readMembers_skipGap]

theorem readItems_comma {fuel : Nat} {s rest : List Char} {v : Draft}
    (h : readValue fuel s = (v, some (',' :: rest))) :
    readItems (fuel + 1) s = (v :: (readItems fuel rest).1, (readItems fuel rest).2) := by
  rw [readItems, h]
  rfl

theorem readItems_close {fuel : Nat} {s after rest : List Char} {v : Draft}
    (h : readValue fuel s = (v, some after)) (hafter : skipGap after = ']' :: rest) :
    readItems (fuel + 1) s = ([v], some rest) := by
  rw [readItems, h]
  dsimp only
  rw [hafter]
  rfl

section Key
variable {fuel : Nat} {s rest : List Char} {v : Draft}

theorem readMembers_comma (key : String) (h : readValue fuel s = (v, some (',' :: rest))) :
    readMembers (fuel + 1) (printText key ++ ':' :: s) =
      ((some key, v) :: (readMembers fuel rest).1, (readMembers fuel rest).2) := by
  rw [printText_append, readMembers, skipGap_cons rfl]
  simp only [readText_printText, skipGap_cons (c := ':') rfl, h, skipGap_cons (c := ',') rfl]

theorem readMembers_close {after : List Char} (key : String)
    (h : readValue fuel s = (v, some after)) (hafter : skipGap after = '\x7d' :: rest) :
    readMembers (fuel + 1) (printText key ++ ':' :: s) = ([(some key, v)], some rest) := by
  rw [printText_append, readMembers, skipGap_cons rfl]
  simp only [readText_printText, skipGap_cons (c := ':') rfl, h, hafter]

end Key

theorem readItems_print {depth : Nat} {v : Tree} {vs : List Tree} (h : ∀ w ∈ v :: vs, Reads w)
    {fuel : Nat} (hfuel : (v.print depth).length + (Tree.printItems depth vs).length ≤ fuel)
    (outer : Nat) (rest : List Char) :
    readItems (fuel + 1) (v.print depth ++ (Tree.printItems depth vs ++
      (Tree.newLine outer ++ ']' :: rest))) = ((v :: vs).map Tree.draft, some rest) := by
  have hv := h v List.mem_cons_self
  induction vs generalizing v fuel with
  | nil =>
    rw [Tree.printItems, List.length_nil] at hfuel
    refine readItems_close (hv depth fuel _ hfuel (stops_newLine _ _)) ?_
    change skipGap (Tree.newLine outer ++ ']' :: rest) = _
    rw [skipGap_newLine, skipGap_cons rfl]
  | cons w ws ih =>
    have hw := h w (List.mem_cons_of_mem _ List.mem_cons_self)
    rw [Tree.printItems] at hfuel ⊢
    simp only [List.cons_append, List.append_assoc, List.length_cons, List.length_append] at hfuel ⊢
    rw [readItems_comma (hv depth fuel _ (by omega) (stops_comma _))]
    obtain ⟨fuel, rfl⟩ := Nat.exists_eq_add_of_le' (show 1 ≤ fuel by omega)
    rw [readItems_newLine, ih (fun u hu => h u (List.mem_cons_of_mem _ hu)) (by omega) hw]
    rfl

theorem readMembers_print {depth : Nat} {m : String × Tree} {ms : List (String × Tree)}
    (h : ∀ n ∈ m :: ms, Reads n.2) {fuel : Nat}
    (hfuel : (m.2.print depth).length + (Tree.printMembers depth ms).length ≤ fuel)
    (outer : Nat) (rest : List Char) :
    readMembers (fuel + 1) (printText m.1 ++ ':' :: ' ' :: (m.2.print depth ++
      (Tree.printMembers depth ms ++ (Tree.newLine outer ++ '\x7d' :: rest)))) =
        ((m :: ms).map fun (key, v) => (some key, v.draft), some rest) := by
  have hm := h m List.mem_cons_self
  induction ms generalizing m fuel with
  | nil =>
    rw [Tree.printMembers, List.length_nil] at hfuel
    have hread := hm depth fuel (Tree.newLine outer ++ '\x7d' :: rest) hfuel (stops_newLine _ _)
    rw [← readValue_space] at hread
    refine readMembers_close m.1 hread ?_
    rw [skipGap_newLine, skipGap_cons rfl]
  | cons n ms ih =>
    have hn := h n (List.mem_cons_of_mem _ List.mem_cons_self)
    rw [Tree.printMembers] at hfuel ⊢
    simp only [List.cons_append, List.append_assoc, List.length_cons, List.length_append,
      List.nil_append] at hfuel ⊢
    have hread := hm depth fuel (',' :: (Tree.newLine depth ++ (printText n.1 ++ ':' :: ' ' ::
      (n.2.print depth ++ (Tree.printMembers depth ms ++ (Tree.newLine outer ++ '\x7d' :: rest))))))
      (by omega) (stops_comma _)
    rw [← readValue_space] at hread
    rw [readMembers_comma m.1 hread]
    obtain ⟨fuel, rfl⟩ := Nat.exists_eq_add_of_le' (show 1 ≤ fuel by omega)
    rw [readMembers_newLine, ih (fun u hu => h u (List.mem_cons_of_mem _ hu)) (by omega) hn]
    rfl

theorem reads_list {items : List Tree} (hitems : ∀ v ∈ items, v.Readable)
    (h : ∀ v ∈ items, Reads v) : Reads (.list items) := by
  intro depth fuel rest hfuel hrest
  cases items with
  | nil =>
    obtain ⟨fuel, rfl⟩ := Nat.exists_eq_add_of_le' (Nat.le_of_succ_le hfuel)
    rfl
  | cons v vs =>
    obtain ⟨c, t, ht, hgap, hc, -⟩ := exists_cons_print (hitems v List.mem_cons_self) (depth + 1)
    rw [Tree.print] at hfuel ⊢
    simp only [List.cons_append, List.append_assoc, List.length_cons, List.length_append,
      List.nil_append, List.length_nil] at hfuel ⊢
    obtain ⟨fuel, rfl⟩ := Nat.exists_eq_add_of_le' (show 2 ≤ fuel by omega)
    have hhead : skipGap (Tree.newLine (depth + 1) ++ (v.print (depth + 1) ++
        (Tree.printItems (depth + 1) vs ++ (Tree.newLine depth ++ ']' :: rest)))) =
        c :: (t ++ (Tree.printItems (depth + 1) vs ++ (Tree.newLine depth ++ ']' :: rest))) := by
      rw [skipGap_newLine, ht, List.cons_append, skipGap_cons hgap]
    rw [readValue_list hhead hc, readItems_newLine, readItems_print h (by omega), Tree.draft,
      Tree.drafts_eq_map]

theorem reads_object {members : List (String × Tree)} (h : ∀ m ∈ members, Reads m.2) :
    Reads (.object members) := by
  intro depth fuel rest hfuel hrest
  cases members with
  | nil =>
    obtain ⟨fuel, rfl⟩ := Nat.exists_eq_add_of_le' (Nat.le_of_succ_le hfuel)
    rfl
  | cons m ms =>
    rw [Tree.print] at hfuel ⊢
    simp only [List.cons_append, List.append_assoc, List.length_cons, List.length_append,
      List.nil_append, List.length_nil] at hfuel ⊢
    obtain ⟨fuel, rfl⟩ := Nat.exists_eq_add_of_le' (show 2 ≤ fuel by omega)
    have hhead : skipGap (Tree.newLine (depth + 1) ++ (printText m.1 ++ (':' :: ' ' ::
        (m.2.print (depth + 1) ++ (Tree.printMembers (depth + 1) ms ++
          (Tree.newLine depth ++ '\x7d' :: rest)))))) =
        '"' :: (m.1.toList.flatMap escapeChar ++ ['"'] ++ (':' :: ' ' ::
        (m.2.print (depth + 1) ++ (Tree.printMembers (depth + 1) ms ++
          (Tree.newLine depth ++ '\x7d' :: rest))))) := by
      rw [skipGap_newLine]
      exact skipGap_cons rfl _
    rw [readValue_object hhead (by decide), readMembers_newLine, readMembers_print h (by omega),
      Tree.draft, Tree.memberDrafts_eq_map]

theorem reads {t : Tree} (h : t.Readable) : Reads t := by
  induction t with
  | number x =>
    cases h with
    | number hx => exact reads_number hx
  | text s =>
    intro depth fuel rest hfuel hrest
    obtain ⟨fuel, rfl⟩ := Nat.exists_eq_add_of_le' (show 1 ≤ fuel by
      simp [Tree.print, printText] at hfuel
      omega)
    exact readValue_text s fuel rest
  | list items ih =>
    cases h with
    | list hitems => exact reads_list hitems fun v hv => ih v hv (hitems v hv)
  | object members ih =>
    cases h with
    | object hmembers => exact reads_object fun m hm => ih m hm (hmembers m hm)

end Draft

open Draft in
theorem ofText_pretty {t : Tree} (h : t.Readable) : Draft.ofText t.pretty = (t.draft, true) := by
  have hread := reads h 0 (2 * (t.print 0).length + 2) [] (by omega) nofun
  rw [List.append_nil] at hread
  rw [Draft.ofText, Tree.pretty, String.toList_ofList]
  dsimp only
  rw [hread]
  rfl

theorem document_pretty {α : Type} (decode : Decoder α) {t : Tree} (h : t.Readable) :
    Decoder.document decode t.pretty = decode t.draft := by
  rw [Decoder.document, ofText_pretty h]
  change (decode t.draft >>= fun a => if true then .ok a else .error .malformed) = _
  cases decode t.draft <;> rfl

end TickCircuit.Json
