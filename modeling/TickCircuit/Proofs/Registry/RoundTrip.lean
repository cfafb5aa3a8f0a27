import TickCircuit.Proofs.Json.RoundTrip
import TickCircuit.Proofs.Registry.Loading
/-!
Saved registries load again. Descriptions do so where their coordinates read back; interfaces are
saved as their text, so the limits of the grammar decide. Main statement: a registry that was
loaded is loaded again as it was saved if its interfaces are within these limits, and is refused
for a count otherwise (`ofText_toText`).
-/
namespace TickCircuit
open Grammar Json Decoder

/-- A part of a document is read as `a`, or is refused for a count in an interface. -/
structure Loads {α : Type} (good : Prop) (read : Except Json.Flaw α) (a : α) : Prop where
  eq_ok : good → read = .ok a
  refused : ¬good → ∃ e, read = .error (.shape (.badInterface e)) ∧ e.flaw.kind = .invalidCount

namespace Loads
variable {α β : Type} {good good' : Prop} {read : Except Json.Flaw α} {a : α} {b : β}

theorem of_ok (h : read = .ok a) : Loads True read a := ⟨fun _ => h, fun hn => absurd trivial hn⟩

theorem congr (h : Loads good read a) (hiff : good' ↔ good) : Loads good' read a := by
  rwa [propext hiff]

theorem bind {f : α → Except Json.Flaw β} (h : Loads good read a) (h' : Loads good' (f a) b) :
    Loads (good ∧ good') (read >>= f) b := by
  constructor
  · rintro ⟨hg, hg'⟩
    rw [h.eq_ok hg]
    exact h'.eq_ok hg'
  · intro hn
    by_cases hg : good
    · rw [h.eq_ok hg]
      exact h'.refused fun hg' => hn ⟨hg, hg'⟩
    · obtain ⟨e, he, hkind⟩ := h.refused hg
      rw [he]
      exact ⟨e, rfl, hkind⟩

theorem map (f : α → β) (h : Loads good read a) : Loads good (f <$> read) (f a) :=
  (h.bind (of_ok (rfl : Except.ok (f a) = .ok (f a)))).congr (by simp)

end Loads

namespace Position

theorem decode_members (x y : Draft) : decode (.object [(some "x", x), (some "y", y)]) = do
    let x ← float x
    let y ← float y
    return ⟨x, y⟩ := by
  cases hx : float x <;> cases hy : float y <;>
    simp [decode, members, once, require, hx, hy, bind, Except.bind, Functor.map, Except.map]

theorem readable {p : Position} (h : ∀ x ∈ p.coordinates, ReadsBack x) : p.encode.Readable := by
  refine .object fun m hm => ?_
  simp only [List.mem_cons, List.not_mem_nil, or_false] at hm
  obtain rfl | rfl := hm
  · exact .number (h _ (by simp [coordinates]))
  · exact .number (h _ (by simp [coordinates]))

theorem decode_encode {p : Position} (h : ∀ x ∈ p.coordinates, ReadsBack x) :
    decode p.encode.draft = .ok p := by
  have hx := Tree.float_draft (h p.x (by simp [coordinates]))
  have hy := Tree.float_draft (h p.y (by simp [coordinates]))
  rw [show p.encode.draft = .object [(some "x", Tree.draft (.number p.x)),
    (some "y", Tree.draft (.number p.y))] from rfl, decode_members, hx, hy]
  rfl

end Position

namespace GateEntry

theorem readable {g : GateEntry} (h : ∀ x ∈ g.coordinates, ReadsBack x) : g.encode.Readable := by
  obtain ⟨id, typeName, position⟩ := g
  refine .object fun m hm => ?_
  cases position with
  | none =>
    simp at hm
    obtain rfl | rfl := hm <;> exact .text
  | some p =>
    simp at hm
    obtain rfl | rfl | rfl := hm
    · exact .text
    · exact .text
    · exact Position.readable h

theorem decode_encode {g : GateEntry} (h : ∀ x ∈ g.coordinates, ReadsBack x) :
    decode g.encode.draft = .ok g := by
  obtain ⟨id, typeName, position⟩ := g
  cases position with
  | none => rfl
  | some p =>
    have hp : optional Position.decode p.encode.draft = .ok (some p) := by
      rw [Tree.optional_draft, Position.decode_encode h]
      rfl
    change decode (.object [(some "id", .text (some id)), (some "type", .text (some typeName)),
      (some "position", p.encode.draft)]) = _
    simp [decode, members, once, require, text, hp, bind, Except.bind, Functor.map, Except.map]
    rfl

end GateEntry

namespace Description

theorem readable {d : Description} (h : ∀ x ∈ d.coordinates, ReadsBack x) : d.encode.Readable := by
  refine .object fun m hm => ?_
  simp at hm
  obtain rfl | rfl := hm
  · refine .list fun v hv => ?_
    obtain ⟨g, hg, rfl⟩ := List.mem_map.mp hv
    exact GateEntry.readable fun x hx => h x (List.mem_flatMap.mpr ⟨g, hg, hx⟩)
  · refine .list fun v hv => ?_
    obtain ⟨link, -, rfl⟩ := List.mem_map.mp hv
    exact .text

theorem decode_members (gates links : Draft) :
    decode (.object [(some "gates", gates), (some "links", links)]) = do
      let gates ← list GateEntry.decode gates
      let links ← list text links
      return ⟨gates, links⟩ := by
  cases hg : list GateEntry.decode gates <;> cases hl : list text links <;>
    simp [decode, members, once, hg, hl, bind, Except.bind, Functor.map, Except.map]

theorem decode_encode {d : Description} (h : ∀ x ∈ d.coordinates, ReadsBack x) :
    decode d.encode.draft = .ok d := by
  have hgates : list GateEntry.decode (Tree.draft (.list (d.gates.map GateEntry.encode))) =
      .ok d.gates := by
    rw [Tree.draft, Tree.drafts_eq_map, List.map_map]
    exact mapM_map_eq_ok fun g hg =>
      GateEntry.decode_encode fun x hx => h x (List.mem_flatMap.mpr ⟨g, hg, hx⟩)
  have hlinks : list text (Tree.draft (.list (d.links.map .text))) = .ok d.links := by
    rw [Tree.draft, Tree.drafts_eq_map, List.map_map]
    exact mapM_map_eq_ok fun link _ => rfl
  rw [show d.encode.draft = .object [(some "gates", Tree.draft (.list (d.gates.map GateEntry.encode))),
    (some "links", Tree.draft (.list (d.links.map .text)))] from rfl, decode_members, hgates, hlinks]
  rfl

theorem ofText_saved {d : Description} (h : ∀ x ∈ d.coordinates, ReadsBack x) :
    ofText d.toText = .ok d := by
  rw [ofText, toText, document_pretty _ (readable h), decode_encode h]
  rfl

end Description

theorem Interface.decode_text (s : String) : decode (.text (some s)) =
    (parse s.toList).mapError fun e => .shape (.badInterface e) := by
  cases h : parse s.toList <;> simp [decode, Decoder.text, h, bind, Except.bind, Except.mapError]

theorem Interface.loads {i : Interface} (h : i.WellLabelled true) :
    Loads i.Bounded (Interface.decode i.encode.draft) i := by
  rw [show i.encode.draft = .text (some i.text) from rfl, decode_text, text, String.toList_ofList]
  constructor
  · intro hb
    rw [show parse i.print = _ from (reads h).parse_eq hb]
    rfl
  · intro hb
    obtain ⟨e, he, hkind⟩ := (reads h).refused hb
    rw [show parse i.print = _ from he]
    exact ⟨e, rfl, hkind⟩

namespace Io

structure Bounded (io : Io) : Prop where
  input : io.input.Bounded
  output : io.output.Bounded

theorem decode_members (input output : Draft) :
    decode (.object [(some "input", input), (some "output", output)]) =
      Interface.decode input >>= fun input => Io.mk input <$> Interface.decode output := by
  cases hi : Interface.decode input <;> cases ho : Interface.decode output <;>
    simp [decode, members, once, hi, ho, bind, Except.bind, Functor.map, Except.map, pure,
      Except.pure]

theorem loads {io : Io} (h : io.WellLabelled) : Loads io.Bounded (decode io.encode.draft) io := by
  rw [show io.encode.draft = .object [(some "input", io.input.encode.draft),
    (some "output", io.output.encode.draft)] from rfl, decode_members]
  have hread := Loads.bind (f := fun input => Io.mk input <$> Interface.decode io.output.encode.draft)
    (Interface.loads h.input) ((Interface.loads h.output).map (Io.mk io.input))
  exact hread.congr ⟨fun h => ⟨h.input, h.output⟩, fun h => ⟨h.1, h.2⟩⟩

end Io

namespace Template

theorem readable {t : Template} (h : ∀ x ∈ t.coordinates, ReadsBack x) : t.encode.Readable := by
  obtain ⟨io, transform, circuit⟩ := t
  have hio : io.encode.Readable := by
    refine .object fun m hm => ?_
    simp at hm
    obtain rfl | rfl := hm <;> exact .text
  have hcircuit : ∀ d ∈ circuit, d.encode.Readable := by
    rintro d ⟨⟩
    exact Description.readable h
  refine .object fun m hm => ?_
  simp only [List.mem_append, List.mem_singleton] at hm
  obtain (rfl | hm) | hm := hm
  · exact hio
  · cases transform with
    | none => cases hm
    | some name =>
      cases List.mem_singleton.mp hm
      exact .text
  · cases circuit with
    | none => cases hm
    | some d =>
      cases List.mem_singleton.mp hm
      exact hcircuit d rfl

def bodyMembers (transform : Option String) (circuit : Option Description) :
    List (Option String × Draft) :=
  transform.elim [] (fun name => [(some "transform", .text (some name))]) ++
    circuit.elim [] fun d => [(some "circuit", d.encode.draft)]

theorem draft_encode (t : Template) : t.encode.draft =
    .object ((some "io", t.io.encode.draft) :: bodyMembers t.transform t.circuit) := by
  obtain ⟨io, transform, circuit⟩ := t
  cases transform <;> cases circuit <;> rfl

theorem decode_bodyMembers (io : Draft) {transform : Option String} {circuit : Option Description}
    (h : ∀ d ∈ circuit, ∀ x ∈ d.coordinates, ReadsBack x) :
    decode (.object ((some "io", io) :: bodyMembers transform circuit)) =
      (fun io => ⟨io, transform, circuit⟩) <$> Io.decode io := by
  have hname : ∀ name, optional text (.text (some name)) = .ok (some name) := fun _ => rfl
  have hcircuit : ∀ d ∈ circuit, optional Description.decode d.encode.draft = .ok (some d) := by
    intro d hd
    rw [Tree.optional_draft, Description.decode_encode (h d hd)]
    rfl
  cases hio : Io.decode io <;> cases transform <;> cases circuit <;>
    simp [decode, bodyMembers, members, once, require, hio, hname, hcircuit, bind, Except.bind,
      Functor.map, Except.map, pure, Except.pure]

theorem loads {t : Template} (hio : t.io.WellLabelled) (h : ∀ x ∈ t.coordinates, ReadsBack x) :
    Loads t.io.Bounded (decode t.encode.draft) t := by
  have hcircuit : ∀ d ∈ t.circuit, ∀ x ∈ d.coordinates, ReadsBack x := fun d hd x hx =>
    h x (by rw [coordinates, hd]; exact hx)
  rw [draft_encode, decode_bodyMembers _ hcircuit]
  exact (Io.loads hio).map fun io => (⟨io, t.transform, t.circuit⟩ : Template)

end Template

theorem loads_entries {templates : List (String × Template)}
    (h : ∀ m ∈ templates, Loads m.2.io.Bounded (Template.decode m.2.encode.draft) m.2) :
    Loads (∀ m ∈ templates, m.2.io.Bounded)
      (entries Template.decode (templates.map fun m => (some m.1, m.2.encode.draft)))
      templates := by
  induction templates with
  | nil => exact (Loads.of_ok rfl).congr (by simp)
  | cons m templates ih =>
    have hrest := ih fun n hn => h n (List.mem_cons_of_mem _ hn)
    have hread := Loads.bind
      (f := fun t => entries Template.decode (templates.map fun m => (some m.1, m.2.encode.draft)) >>=
        fun more => .ok ((m.1, t) :: more))
      (h m List.mem_cons_self) (hrest.bind (b := m :: templates) (Loads.of_ok rfl))
    exact hread.congr (by simp)

namespace Registry

def Bounded (r : Registry) : Prop := ∀ m ∈ r.templates, m.2.io.Bounded

theorem readable {r : Registry} (h : ∀ x ∈ r.coordinates, ReadsBack x) :
    (Tree.object (r.templates.map fun (name, t) => (name, t.encode))).Readable := by
  refine .object fun n hn => ?_
  obtain ⟨m, hm, rfl⟩ := List.mem_map.mp hn
  exact Template.readable fun x hx => h x (List.mem_flatMap.mpr ⟨m, hm, hx⟩)

theorem Loaded.loads {r : Registry} (h : r.Loaded) (hx : ∀ x ∈ r.coordinates, ReadsBack x) :
    Loads r.Bounded (document (map Template.decode) r.toText) r.templates := by
  rw [toText, document_pretty _ (readable hx), Tree.draft, Tree.memberDrafts_eq_map, List.map_map]
  exact loads_entries fun m hm =>
    Template.loads (h.templates m hm).io fun x hm' => hx x (List.mem_flatMap.mpr ⟨m, hm, hm'⟩)

theorem Loaded.ofText_eq_ok {r : Registry} (h : r.Loaded)
    (hread : document (map Template.decode) r.toText = .ok r.templates) :
    ofText r.toText = .ok r := by
  obtain ⟨templates, natives⟩ := r
  cases h.natives
  have hputAll : Entries.putAll [] templates = templates := Entries.putAll_of_nodup h.nodup
  refine Registry.ofText_eq_ok.mpr ⟨templates, hread, ?_, by rw [hputAll]⟩
  rw [hputAll]
  exact h.body

theorem Loaded.refused {r : Registry} (h : r.Loaded) (hx : ∀ x ∈ r.coordinates, ReadsBack x)
    (hb : ¬r.Bounded) : ∃ e, ofText r.toText = .error (.document (.shape (.badInterface e))) ∧
      e.flaw.kind = .invalidCount := by
  obtain ⟨e, he, hkind⟩ := (h.loads hx).refused hb
  refine ⟨e, ?_, hkind⟩
  rw [ofText, he]
  rfl

theorem ofText_circuit (name : String) (d : Description) {input : String} {i : Interface}
    (hi : Interface.parse input.toList = .ok i) (hx : ∀ x ∈ d.coordinates, ReadsBack x) :
    ofText (Tree.object [(name, .object [("io", .object [("input", .text input)]),
      ("circuit", d.encode)])]).pretty = .ok ⟨[(name, .ofCircuit ⟨i, default⟩ d)], []⟩ := by
  have hreadable : (Tree.object [(name, .object [("io", .object [("input", .text input)]),
      ("circuit", d.encode)])]).Readable := by
    refine .object (List.forall_mem_singleton.mpr (.object (List.forall_mem_cons.mpr ⟨?_, ?_⟩)))
    · exact .object (List.forall_mem_singleton.mpr .text)
    · exact List.forall_mem_singleton.mpr (Description.readable hx)
  have hio : Io.decode (.object [(some "input", .text (some input))]) = .ok ⟨i, default⟩ := by
    have hinput : Interface.decode (.text (some input)) = .ok i := by
      rw [Interface.decode_text, hi]
      rfl
    simp [Io.decode, members, once, hinput, bind, Except.bind, Functor.map, Except.map, pure,
      Except.pure]
  have htemplate := @Template.decode_bodyMembers (.object [(some "input", .text (some input))]) none
    (some d) (by rintro _ ⟨⟩; exact hx)
  rw [hio] at htemplate
  refine ofText_eq_ok.mpr ⟨[(name, .ofCircuit ⟨i, default⟩ d)], ?_, ?_, rfl⟩
  · rw [document_pretty _ hreadable]
    change (Template.decode _ >>= fun t => .ok [(name, t)]) = _
    exact bind_eq_ok.mpr ⟨_, htemplate, rfl⟩
  · intro m hm
    cases List.mem_singleton.mp hm
    exact ⟨_, rfl⟩

theorem ofText_bits {n : Nat} (hn : maxCount < n) {input : String}
    (hinput : input = String.ofList
      ('[' :: Text.intercalate [','] (List.replicate n ['b', 'i', 't']) ++ [']'])) :
    ∃ r, ofText (Tree.object [("many", .object [("io", .object [("input", .text input)]),
      ("circuit", .object [("gates", .list []), ("links", .list [])])])]).pretty = .ok r ∧
      r.coordinates = [] ∧
      ∃ e, ofText r.toText = .error (.document (.shape (.badInterface e))) ∧
        e.flaw.kind = .invalidCount := by
  have hi : Interface.parse input.toList = .ok (.copies n (.bit none)) := by
    rw [hinput, String.toList_ofList, Interface.parse_bits]
  have hr := ofText_circuit "many" ⟨[], []⟩ hi nofun
  refine ⟨_, hr, rfl, (Loaded.of_ofText hr).refused nofun fun hb => ?_⟩
  have hbits : (Interface.copies n (.bit none)).Bounded := (hb _ List.mem_cons_self).input
  obtain ⟨n, rfl⟩ := Nat.exists_eq_add_one_of_ne_zero (Nat.ne_zero_of_lt hn)
  exact absurd (Interface.bounded_copies.mp hbits).2.1 (Nat.not_le.mpr hn)

/-- A registry that was loaded is loaded again as it was saved if its interfaces are within the
limits of the grammar, and is refused for a count if not. -/
theorem ofText_toText {text : String} {r : Registry} (h : ofText text = .ok r)
    (hx : ∀ x ∈ r.coordinates, x.isFinite = true → ReadsBack x) :
    (ofText r.toText = .ok r ↔ r.Bounded) ∧
      (¬r.Bounded → ∃ e, ofText r.toText = .error (.document (.shape (.badInterface e))) ∧
        e.flaw.kind = .invalidCount) := by
  have hloaded := Loaded.of_ofText h
  have hreads : ∀ x ∈ r.coordinates, ReadsBack x := fun x hmem => hx x hmem (hloaded.finite x hmem)
  refine ⟨⟨fun hok => ?_, fun hb => hloaded.ofText_eq_ok ((hloaded.loads hreads).eq_ok hb)⟩,
    hloaded.refused hreads⟩
  by_contra hb
  obtain ⟨e, he, -⟩ := hloaded.refused hreads hb
  cases hok.symm.trans he

/-- Bits that are written out are saved as a repetition and load again, also beside coordinates. -/
theorem ofText_toText_pair :
    let r : Registry := ⟨[("pair", .ofCircuit ⟨.copies 2 (.bit none), default⟩
      ⟨[⟨"a", "not", some ⟨1.5, 2⟩⟩], []⟩)], []⟩
    ofText (Tree.object [("pair", .object [("io", .object [("input", .text "[bit,bit]")]),
      ("circuit", .object [("gates", .list [.object [("id", .text "a"), ("type", .text "not"),
        ("position", .object [("x", .number 1.5), ("y", .number 2)])]]),
        ("links", .list [])])])]).pretty = .ok r ∧
    (∀ x ∈ r.coordinates, x.isFinite = true → ReadsBack x) ∧ ofText r.toText = .ok r := by
  intro r
  have hreads : ∀ x ∈ r.coordinates, ReadsBack x := by
    have hx : printFloat 1.5 = ['1', '.', '5'] := by decide +kernel
    have hy : printFloat 2 = ['2', '.', '0'] := by decide +kernel
    refine List.forall_mem_cons.mpr ⟨?_, List.forall_mem_singleton.mpr ?_⟩
    · exact ⟨⟨false, ['1'], ['5'], none⟩, .real 1.5, by rw [hx]; rfl, by decide +kernel, rfl⟩
    · exact ⟨⟨false, ['2'], ['0'], none⟩, .real 2, by rw [hy]; rfl, by decide +kernel, rfl⟩
  have hbits : Interface.parse "[bit,bit]".toList = .ok (.copies 2 (.bit none)) :=
    Interface.parse_bits 2
  have hr := ofText_circuit "pair" ⟨[⟨"a", "not", some ⟨1.5, 2⟩⟩], []⟩ hbits hreads
  refine ⟨hr, fun x hx _ => hreads x hx, (ofText_toText hr fun x hx _ => hreads x hx).1.mpr ?_⟩
  refine List.forall_mem_singleton.mpr ⟨?_, .any⟩
  exact Interface.bounded_copies.mpr ⟨.bit, by decide, by decide⟩

/-- A list of 1025 bits is accepted, and refused once it was saved. -/
theorem many_bits_refused :
    ∃ r, ofText (Tree.object [("many", .object [("io", .object [("input", .text (String.ofList
      ('[' :: Text.intercalate [','] (List.replicate 1025 ['b', 'i', 't']) ++ [']'])))]),
      ("circuit", .object [("gates", .list []), ("links", .list [])])])]).pretty = .ok r ∧
      r.coordinates = [] ∧
      ∃ e, ofText r.toText = .error (.document (.shape (.badInterface e))) ∧
        e.flaw.kind = .invalidCount :=
  ofText_bits (n := 1025) (by decide) rfl

end Registry
end TickCircuit
