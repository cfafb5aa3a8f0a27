import Mathlib.Data.List.Forall2
import TickCircuit.Proofs.Gate.Describe
import TickCircuit.Proofs.Gate.LinkType
import TickCircuit.Proofs.Gate.Rollback
import TickCircuit.Proofs.Gate.Running
import TickCircuit.Proofs.Interface.Accepts
/-!
Saving a circuit and reading it back. Main statement: a circuit that was inserted and then ran is
described so that the description can be inserted again, into a circuit of which the same
description is made (`insert_describeAll`).
-/
namespace TickCircuit
open Text

theorem Port.fits_follow {whole steps : PathSpec} {port : Option Port} {interface : Interface}
    {leaf : Leaf} (h : follow whole port interface steps = .ok leaf) (hsteps : steps.Fits) :
    (Path.spec leaf.path).Fits := by
  induction steps generalizing port interface leaf with
  | nil =>
    cases h
    nofun
  | cons step steps ih =>
    obtain ⟨index, child, rest, hopen, -, hrest, rfl⟩ := of_follow_cons h
    have hbelow := ih hrest fun n hn => hsteps n (List.mem_cons_of_mem _ hn)
    have hindex : index < wordLimit := by
      cases step with
      | index n =>
        have hn := hsteps n List.mem_cons_self
        rwa [hopen.1 n rfl]
      | next =>
        have hlimit := hopen.2.2 (hopen.2.1 rfl).1
        exact Nat.lt_trans hlimit (by decide)
    intro n hn
    obtain hn | hn := List.mem_cons.mp hn
    · cases hn
      exact hindex
    · exact hbelow n hn

namespace Gate

theorem typeName_setBoundary {input output : Interface} {g g' : Gate}
    (h : g.setBoundary input output = (g', .ok ())) : g'.face.typeName = g.face.typeName := by
  cases g with
  | function face name t => cases h
  | circuit face c =>
    obtain ⟨-, -, -, -, rfl⟩ := setBoundary_eq_ok.mp h
    rfl

theorem typeName_close {typeName : String} {io : Io} {c : Circuit Gate} {g : Gate}
    (h : close typeName io c = .ok g) : g.face.typeName = typeName := by
  obtain ⟨_, _, _, hr, -, -, h⟩ := close_eq_ok.mp h
  obtain ⟨_, _, hb⟩ := resolve_eq_ok hr
  rw [typeName_setBoundary h, typeName_setBoundary hb]
  rfl

theorem typeName_ofTemplate {registry : Registry} {typeName : String} {g : Gate}
    (h : ofTemplate registry typeName = .ok g) : g.face.typeName = typeName := by
  obtain ⟨io, name, rfl⟩ | ⟨d, io, c, made, -, -, -, hc⟩ := of_ofTemplateWithin h
  · rfl
  · exact typeName_close hc

end Gate

namespace Circuit
variable {c c' : Circuit Gate}

theorem gates_insertGates {make : String → Except Fault Gate} {offset : Position}
    {made made' : Insertion} {entries : List GateEntry} (hc : ∀ id ∈ c.gateIds, id < c.nextGate)
    (h : c.insertGates make offset made entries = (c', made', .ok ())) :
    ∃ gs, c'.gates = c.gates ++ (gs.zipIdx c.nextGate).map Prod.swap ∧
      List.Forall₂ (fun entry g => ∃ a, make entry.typeName = .ok a ∧
        g = a.moved ((entry.position.getD .zero).add offset)) entries gs ∧
      made'.gates = made.gates.putAll ((entries.map (·.id)).zipIdx c.nextGate) := by
  induction entries generalizing c made with
  | nil =>
    cases h
    exact ⟨[], (List.append_nil _).symm, .nil, rfl⟩
  | cons entry entries ih =>
    rw [Circuit.insertGates] at h
    cases hm : make entry.typeName with
    | error e =>
      rw [hm] at h
      cases h
    | ok a =>
      rw [hm] at h
      dsimp only at h
      obtain ⟨hadded, hids⟩ := gates_add_of_lt hc (a.moved ((entry.position.getD .zero).add offset))
      obtain ⟨gs, hgates, hmade, hrecord⟩ := ih hids h
      refine ⟨_ :: gs, ?_, .cons ⟨a, hm, rfl⟩ hmade, hrecord⟩
      rw [hgates, hadded, List.append_assoc, List.zipIdx_cons]
      rfl

theorem tags_insertGates {make : String → Except Fault Gate}
    (hname : ∀ {name g}, make name = .ok g → g.face.typeName = name) {offset : Position}
    {made made' : Insertion} {entries : List GateEntry} (hc : ∀ id ∈ c.gateIds, id < c.nextGate)
    (h : c.insertGates make offset made entries = (c', made', .ok ())) :
    c'.tags = c.tags ++ (entries.zipIdx c.nextGate).map (fun (entry, id) =>
      (id, entry.typeName, (entry.position.getD .zero).add offset)) ∧
      made'.gates = made.gates.putAll ((entries.map (·.id)).zipIdx c.nextGate) := by
  obtain ⟨gs, hgates, hmade, hrecord⟩ := gates_insertGates hc h
  refine ⟨?_, hrecord⟩
  rw [tags, hgates, List.map_append, List.map_map]
  refine congrArg (c.tags ++ ·) ?_
  clear h hgates hrecord
  generalize c.nextGate = n
  induction hmade generalizing n with
  | nil => rfl
  | cons hg _ ih =>
    obtain ⟨a, ha, rfl⟩ := hg
    rw [List.zipIdx_cons, List.zipIdx_cons, List.map_cons, List.map_cons, ih]
    simp [Gate.tag_moved, hname ha]

theorem get?_numbered_range {n k : Nat} (h : k < n) :
    (numbered 0 ((List.range n).map numberText)).get? (numberText k) = some k := by
  have hmem : numberText k ∈ (List.range n).map numberText :=
    List.mem_map.mpr ⟨k, List.mem_range.mpr h, rfl⟩
  cases hget : (numbered 0 ((List.range n).map numberText)).get? (numberText k) with
  | none => exact absurd hmem (get?_numbered_eq_none.mp hget)
  | some m =>
    obtain ⟨i, hi, rfl⟩ := of_get?_numbered hget
    rw [List.getElem?_map] at hi
    obtain ⟨j, hj, hname⟩ := Option.map_eq_some_iff.mp hi
    obtain ⟨_, rfl⟩ := List.getElem?_eq_some_iff.mp hj
    rw [List.getElem_range] at hname
    rw [Nat.zero_add, numberText_injective hname]

theorem Joined.mem {made : Insertion} {specs : List LinkSpec} {ls : List Link}
    (h : Joined made c specs ls c') {l : Link} (hl : l ∈ ls) :
    ∃ c₁ spec start end_, spec ∈ specs ∧ linkEnd made spec.source = .ok start ∧
      linkEnd made spec.sink = .ok end_ ∧ Joins c₁ start end_ spec.literal l := by
  induction h with
  | nil c => cases hl
  | @cons c c' spec specs _ ls _ _ source sink joins _ ih =>
    obtain rfl | hl := List.mem_cons.mp hl
    · exact ⟨c, spec, _, _, List.mem_cons_self, source, sink, joins⟩
    · obtain ⟨c₁, spec', start, end_, hspec, hrest⟩ := ih hl
      exact ⟨c₁, spec', start, end_, List.mem_cons_of_mem _ hspec, hrest⟩

theorem path_linkEnd {made : Insertion} {e : EndSpec} {end_ : LinkEnd}
    (h : linkEnd made e = .ok end_) : end_.path = e.path := by
  unfold linkEnd at h
  split at h
  · cases h
    rfl
  next id _ =>
    cases hg : made.gates.get? id with
    | none => simp [hg] at h
    | some g =>
      rw [hg] at h
      cases h
      rfl

theorem Joins.fits_path {start end_ : LinkEnd} {literal : Option Value} {l : Link}
    (h : Joins c start end_ literal l) (hstart : start.path.Fits) (hend : end_.path.Fits)
    (d : Direction) : (Path.spec (l.endAt d).path).Fits := by
  cases d with
  | output =>
    obtain ⟨p, leaf, -, hr, hs, -⟩ := h.source
    rw [Link.endAt, hs]
    exact Port.fits_follow hr hstart
  | input =>
    obtain ⟨p, leaf, -, hr, hs, -⟩ := h.sink
    rw [Link.endAt, hs]
    exact Port.fits_follow hr hend

end Circuit

def Description.moved (d : Description) (offset : Position) : Description :=
  { d with gates := d.gates.map fun g => { g with position := g.position.map (·.add offset) } }

theorem Description.moved_eq_self {d : Description} {offset : Position}
    (h : ∀ g ∈ d.gates, ∀ p, g.position = some p → p.add offset = p) : d.moved offset = d := by
  have hgates : (d.gates.map fun g => { g with position := g.position.map (·.add offset) }) =
      d.gates := by
    refine (List.map_congr_left fun g hg => ?_).trans (List.map_id _)
    obtain ⟨id, typeName, position⟩ := g
    cases position with
    | none => rfl
    | some p =>
      have hp := h _ hg p rfl
      simp [hp]
  rw [moved, hgates]

namespace Circuit

/-- The circuit is what a description came to in a new circuit, where `ls` are its links. -/
structure Filled (registry : Registry) (d : Description) (c : Circuit Gate) (ls : List Link) :
    Prop where
  gates : ∃ offset c₀ made specs, (empty registry).insertGates (Gate.ofTemplate registry) offset
    ⟨[], [], .new .output default, .new .input default⟩ d.gates = (c₀, made, .ok ()) ∧
    c₀.Wired ∧ Joined made c₀ specs ls c
  unresolved : c.Unresolved
  links : c.links.entries.map (·.2) = ls
  paths : ∀ l ∈ ls, ∀ d, (Path.spec (l.endAt d).path).Fits
  values : ∀ l ∈ ls, ∀ v, l.current = some v ∨ l.last = some v → l.data.accepts v = true

theorem Joined.all_links {make : String → Except Fault Gate} {registry : Registry}
    {offset : Position} {made₀ made : Insertion} {entries : List GateEntry} {c₀ : Circuit Gate}
    {specs : List LinkSpec} {ls : List Link} (hj : Joined made c₀ specs ls c) (hw : c₀.Wired)
    (hg : (empty registry).insertGates make offset made₀ entries = (c₀, made, .ok ())) :
    c.links.entries.map (·.2) = ls := by
  have hnone := (insertGates_keeps make offset (empty registry) made₀ entries).1
  rw [hg] at hnone
  dsimp only at hnone
  rw [(hj.links hw).1, hnone]
  simp [empty, LinkTable.empty, Function.comp_def]

theorem filled_insert {registry : Registry} {d : Description} {offset : Position}
    {c : Circuit Gate} {made : Insertion}
    (h : (empty registry).insert (Gate.ofTemplate registry) d offset = (c, .ok made)) :
    ∃ ls, Filled registry d c ls := by
  have hmake := Gate.makesSound_ofTemplate registry
  have hempty := sound_empty registry
  obtain ⟨c₀, made₀, specs, ls, hg, hd, hj⟩ := (insert_eq_ok hmake hempty).mp ⟨made, h⟩
  have hs := hempty.insertGates hmake offset d.gates
  rw [hg] at hs
  refine ⟨ls, ⟨offset, c₀, made₀, specs, hg, hs.wired, hj⟩, unresolved_insert hmake h,
    hj.all_links hs.wired hg, fun l hl => ?_, fun l hl v hv => ?_⟩
  · obtain ⟨c₁, spec, start, end_, hspec, hstart, hend, hjoins⟩ := hj.mem hl
    obtain ⟨link, -, hparse⟩ := mem_of_mapM hd hspec
    obtain ⟨⟨-, hsource⟩, ⟨-, hsink⟩, -, -⟩ := LinkSpec.readable_of_parse hparse
    rw [← path_linkEnd hstart] at hsource
    rw [← path_linkEnd hend] at hsink
    exact hjoins.fits_path hsource hsink
  · obtain ⟨c₁, spec, start, end_, -, -, -, hjoins⟩ := hj.mem hl
    rw [hjoins.current, hjoins.last] at hv
    exact hjoins.accepts v (hv.elim id id)

theorem map_fst_zipIdx {α β : Type} (f : α → β) (xs : List α) (n : Nat) :
    (xs.zipIdx n).map (fun x => f x.1) = xs.map f := by
  have h := congrArg (List.map f) (List.zipIdx_map_fst n xs)
  rwa [List.map_map] at h

section
variable {registry : Registry} {d : Description} {c c₁ : Circuit Gate} {ls : List Link}

theorem Filled.typeNames (h : Filled registry d c₁ ls) :
    c₁.typeNames = d.gates.zipIdx.map fun (entry, id) => (id, entry.typeName) := by
  obtain ⟨offset, c₀, made, specs, hg, -, hj⟩ := h.gates
  have htags := (tags_insertGates Gate.typeName_ofTemplate (fun _ hid => by cases hid) hg).1
  rw [Circuit.typeNames, hj.tags, htags]
  simp [tags, empty, Function.comp_def]

theorem Filled.gateIds (h : Filled registry d c₁ ls) (hnames : c.typeNames = c₁.typeNames) :
    c.gateIds = List.range d.gates.length := by
  rw [← keys_typeNames, hnames, h.typeNames, Entries.keys, List.map_map]
  exact (List.zipIdx_map_snd 0 d.gates).trans List.range_eq_range'.symm

theorem tags_numbered {n : Nat} (hids : c.gateIds = List.range n) (offset : Position) :
    ((c.tags.zipIdx.map fun (e, id) => GateEntry.numbered id e.2).zipIdx.map
      fun (entry, id) => (id, entry.typeName, (entry.position.getD .zero).add offset)) =
      c.tags.map fun (id, t) => (id, t.1, t.2.add offset) := by
  refine List.ext_getElem? fun k => ?_
  cases he : c.tags[k]? with
  | none => simp [he]
  | some e =>
    have hkey : (List.range n)[k]? = some e.1 := by
      rw [← hids, ← keys_tags, Entries.keys, List.getElem?_map, he]
      rfl
    obtain ⟨_, hkey⟩ := List.getElem?_eq_some_iff.mp hkey
    rw [List.getElem_range] at hkey
    subst hkey
    simp [he, GateEntry.numbered]

theorem Wired.linkEnd_spec (h : c.Wired) {n : Nat} (hids : c.gateIds = List.range n)
    {made : Insertion} (hmade : made.gates = numbered 0 ((List.range n).map numberText))
    {id : LinkId} {l : Link} (hl : c.links.get? id = some l) (d : Direction) :
    linkEnd made (l.endAt d).spec = .ok ⟨(l.endAt d).node, Path.spec (l.endAt d).path⟩ := by
  obtain hn | ⟨gid, hgid, hn⟩ := h.node_endAt hl d
  · simp [linkEnd, Endpoint.spec, hn]
  · rw [hids] at hgid
    simp [linkEnd, Endpoint.spec, hn, hmade, get?_numbered_range (List.mem_range.mp hgid)]

theorem Filled.blanks (h : Filled registry d c₁ ls) (hlinks : c.links.blank = c₁.links.blank) :
    (c.links.entries.map (·.2)).map Link.blank = ls.map Link.blank := by
  have hentries := congrArg LinkTable.entries hlinks
  rw [LinkTable.entries_blank, LinkTable.entries_blank] at hentries
  have hblank := congrArg (List.map Prod.snd) hentries
  rw [← h.links]
  simpa [Function.comp_def] using hblank

theorem Filled.fits_path (h : Filled registry d c₁ ls) (hlinks : c.links.blank = c₁.links.blank)
    {id : LinkId} {l : Link} (hl : c.links.get? id = some l) (dir : Direction) :
    (Path.spec (l.endAt dir).path).Fits := by
  have hmem : l.blank ∈ ls.map Link.blank := by
    rw [← h.blanks hlinks]
    exact List.mem_map_of_mem (List.mem_map.mpr ⟨(id, l), Entries.mem_of_get? hl, rfl⟩)
  obtain ⟨m, hm, hblank⟩ := List.mem_map.mp hmem
  rw [← Link.endAt_of_blank hblank dir]
  exact h.paths m hm dir

theorem Filled.typeNames_describeAll (h : Filled registry d c₁ ls) (hc : c.Wired)
    (hnames : c.typeNames = c₁.typeNames) :
    c.describeAll.gates.map (·.typeName) = d.gates.map (·.typeName) := by
  have hsnd := congrArg (List.map Prod.snd) (hnames.trans h.typeNames)
  rw [Circuit.typeNames, List.map_map, List.map_map] at hsnd
  rw [describeAll_eq hc (h.gateIds hnames), List.map_map]
  exact (map_fst_zipIdx (fun e => e.2.1) c.tags 0).trans
    (hsnd.trans (map_fst_zipIdx GateEntry.typeName d.gates 0))

/-- A circuit that has the same gates and links, with any values that the links can carry, can be
made from its description. -/
theorem Filled.againAt (h : Filled registry d c₁ ls) (hc : c.Wired)
    (hnames : c.typeNames = c₁.typeNames) (hlinks : c.links.blank = c₁.links.blank)
    (haccepts : ∀ id l v, c.links.get? id = some l → l.last = some v → l.data.accepts v = true)
    (hvalues : ∀ id l v, c.links.get? id = some l → l.last = some v →
      Value.parse v.print = .ok v) (place : Position) :
    ∃ c₂ made n, (empty registry).insert (Gate.ofTemplate registry) c.describeAll place =
      (c₂, .ok made) ∧ c₁.Alike c₂ ∧ c.gateIds = List.range n ∧
      c₂.tags = c.tags.map (fun (id, t) => (id, t.1, t.2.add place)) ∧
      c₂.links.entries.map (·.2) = c.links.entries.map (·.2.renewed) := by
  have hmake := Gate.makesSound_ofTemplate registry
  have hempty := sound_empty registry
  obtain ⟨offset, c₀, made, specs, hg, hw, hj⟩ := h.gates
  have hids := h.gateIds hnames
  have hspecs := specs_describeAll hc hids (fun id l hl => h.fits_path hlinks hl) hvalues
  have htypes := h.typeNames_describeAll hc hnames
  obtain ⟨b₀, made', hb, hab⟩ := (Alike.refl (empty registry)).insertGates hg htypes place
    ⟨[], [], .new .output default, .new .input default⟩
  obtain ⟨htags, hmade⟩ :=
    tags_insertGates Gate.typeName_ofTemplate (fun _ hid => by cases hid) hb
  have hnumbered : made'.gates = numbered 0 ((List.range d.gates.length).map numberText) := by
    rw [hmade, ids_describeAll hc hids]
    rfl
  have hget : ∀ m ∈ c.links.entries.map (·.2), ∃ id, c.links.get? id = some m := by
    intro m hm
    obtain ⟨⟨id, m⟩, he, rfl⟩ := List.mem_map.mp hm
    exact ⟨id, Entries.get?_of_mem hc.links_nodup he⟩
  have hends : ∀ m ∈ c.links.entries.map (·.2),
      linkEnd made' m.spec.source = .ok ⟨m.source.node, Path.spec m.source.path⟩ ∧
      linkEnd made' m.spec.sink = .ok ⟨m.sink.node, Path.spec m.sink.path⟩ ∧
      m.spec.literal = m.last := by
    intro m hm
    obtain ⟨id, hm⟩ := hget m hm
    exact ⟨hc.linkEnd_spec hids hnumbered hm .output, hc.linkEnd_spec hids hnumbered hm .input, rfl⟩
  obtain ⟨b₁, hj', hab'⟩ := hj.again hab hw Link.spec (h.blanks hlinks) hends fun m hm v hv => by
    obtain ⟨id, hm⟩ := hget m hm
    exact haccepts id m v hm hv
  have hall := hj'.all_links (hab.wired hw) hb
  rw [List.map_map] at hj'
  obtain ⟨made₁, hinsert⟩ := (insert_eq_ok hmake hempty).mpr ⟨b₀, made', _, _, hb, hspecs, hj'⟩
  refine ⟨b₁, made₁, _, hinsert, hab', hids, ?_, ?_⟩
  · rw [hj'.tags, htags, describeAll_eq hc hids]
    exact tags_numbered hids place
  · rw [hall, List.map_map]
    rfl

theorem Filled.again (h : Filled registry d c₁ ls) (hc : c.Wired)
    (hnames : c.typeNames = c₁.typeNames) (hlinks : c.links.blank = c₁.links.blank)
    (haccepts : ∀ id l v, c.links.get? id = some l → l.last = some v → l.data.accepts v = true)
    (hvalues : ∀ id l v, c.links.get? id = some l → l.last = some v →
      Value.parse v.print = .ok v) :
    ∃ c₂ made n, (empty registry).insert (Gate.ofTemplate registry) c.describeAll .zero =
      (c₂, .ok made) ∧ c₁.Alike c₂ ∧ c.gateIds = List.range n ∧
      c₂.tags = c.tags.map (fun (id, t) => (id, t.1, t.2.add .zero)) ∧
      c₂.links.entries.map (·.2) = c.links.entries.map (·.2.renewed) :=
  h.againAt hc hnames hlinks haccepts hvalues .zero

theorem Filled.accepts (h : Filled registry d c₁ ls) (hlinks : c.links.blank = c₁.links.blank)
    (hc : c.Carries) {id : LinkId} {l : Link} {v : Value} (hl : c.links.get? id = some l)
    (hv : l.last = some v) : l.data.accepts v = true := by
  by_cases hn : l.source.node = .boundary
  · -- what comes from the boundary was made for anything
    have hget : (c₁.links.get? id).map Link.blank = some l.blank := by
      rw [← LinkTable.get?_blank, ← hlinks, LinkTable.get?_blank, hl]
      rfl
    obtain ⟨l₁, hl₁, hblank⟩ := Option.map_eq_some_iff.mp hget
    have hsource : l₁.source = l.source := Link.endAt_of_blank hblank .output
    obtain ⟨htype, -⟩ := h.unresolved.fits hl₁
    rw [hsource, show l.source = ⟨.boundary, l.source.path⟩ from hn ▸ rfl] at htype
    have hany := h.unresolved.typeAt?_boundary htype
    rw [Link.data_of_blank hblank] at hany
    exact Interface.accepts_of_isAny hany v
  · exact (hc id l hl hn).2 v (.inr hv)

theorem Filled.carries (h : Filled registry d c₁ ls) {io : Io} (hr : c₁.Resolves io c) :
    c.Carries := by
  intro id l hl hn
  rw [hr.links] at hl
  obtain ⟨htype, -⟩ := h.unresolved.fits hl
  have hmem : l ∈ ls := by
    rw [← h.links]
    exact List.mem_map.mpr ⟨(id, l), Entries.mem_of_get? hl, rfl⟩
  refine ⟨?_, fun v hv => h.values l hmem v hv⟩
  rw [hr.typeAt? .output hn]
  exact htype

end

end Circuit

/-- A copy of a circuit, but for positions and the values that its links are to write, has the same
description. -/
theorem Circuit.describeAll_copy {c c' : Circuit Gate} (hc : c.Wired) (hc' : c'.Wired) {n : Nat}
    (hids : c.gateIds = List.range n) (hids' : c'.gateIds = List.range n) {offset : Position}
    (htags : c'.tags = c.tags.map fun e => (e.1, e.2.1, e.2.2.add offset))
    (hlinks : c'.links.entries.map (·.2) = c.links.entries.map (·.2.renewed)) :
    c'.describeAll = c.describeAll.moved offset := by
  have hgates : (c'.tags.zipIdx.map fun e => GateEntry.numbered e.2 e.1.2) =
      (c.tags.zipIdx.map fun e => GateEntry.numbered e.2 e.1.2).map
        fun g => { g with position := g.position.map (·.add offset) } := by
    rw [htags, List.zipIdx_map, List.map_map, List.map_map]
    rfl
  have htexts : (c'.links.entries.map fun e => String.ofList e.2.spec.text) =
      c.links.entries.map fun e => String.ofList e.2.spec.text := by
    have htext := congrArg (List.map fun l : Link => String.ofList l.spec.text) hlinks
    rw [List.map_map, List.map_map] at htext
    exact htext
  rw [describeAll_eq hc hids, describeAll_eq hc' hids', hgates, htexts]
  rfl

/-- A circuit that was inserted and then ran can be described, and the description can be inserted
again: the copy has the same description and the same types at its boundary, with nothing but the
offset added to the positions. -/
theorem insert_describeAll {registry : Registry} {name : String} {d : Description}
    {offset : Position} {start : Gate} {ids : Entries String GateId}
    (made : (Gate.ofCircuit name (.empty registry)).insert d offset = (start, .ok ids))
    {face : Face} {c : Circuit Gate} (ran : start.Ticked (.circuit face c))
    (reads : ∀ id l v, c.links.get? id = some l → l.last = some v → Value.parse v.print = .ok v)
    (copyName : String) :
    ∃ face' c' ids', (Gate.ofCircuit copyName (.empty registry)).insert c.describeAll .zero =
      (.circuit face' c', .ok ids') ∧
    c'.describeAll = c.describeAll.moved .zero ∧
    ((∀ g ∈ c.describeAll.gates, ∀ p, g.position = some p → p.add .zero = p) →
      c'.describeAll = c.describeAll) ∧
    face'.input.interface = face.input.interface ∧
    face'.output.interface = face.output.interface ∧
    c'.innerInput.interface = c.innerInput.interface ∧
    c'.innerOutput.interface = c.innerOutput.interface := by
  obtain ⟨c₁, made₁, hi, hr⟩ := Gate.insert_eq_ok.mp ⟨ids, made⟩
  obtain ⟨ls, hfilled⟩ := Circuit.filled_insert hi
  have hstart := ((Gate.Reachable.circuit name registry).sound.insert d offset).1
  rw [made] at hstart
  obtain ⟨input, output, hb⟩ := Gate.resolve_eq_ok hr
  obtain ⟨-, -, -, -, rfl⟩ := Gate.setBoundary_eq_ok.mp hb
  obtain ⟨-, -, hc₂⟩ := Gate.sound_circuit_iff.mp hstart
  -- what has run is alike to what was inserted
  have hresolves := Gate.resolves_resolve hr
  obtain ⟨_, _, he, hkeeps, hin, hout⟩ := ran.keeps hc₂ (hfilled.carries hresolves)
  cases he
  obtain ⟨b₁, made', n, hinsert, hab, hids, htags, hlinks⟩ := hfilled.again hkeeps.sound.wired
    hkeeps.alike.typeNames.symm hkeeps.alike.links.symm
    (fun id l v hl hv => hfilled.accepts hkeeps.alike.links.symm hkeeps.carries hl hv) reads
  -- and so is its copy
  have houter : (Face.new name ⟨default, default⟩).input =
      (Face.new copyName ⟨default, default⟩).input ∧ (Face.new name ⟨default, default⟩).output =
      (Face.new copyName ⟨default, default⟩).output := ⟨rfl, rfl⟩
  obtain ⟨face', b₂, hr', hab', hin', hout', hl, hg⟩ := hab.resolve houter.1 houter.2 hr
  obtain ⟨ids', hcopy⟩ := Gate.insert_eq_ok.mpr ⟨b₁, made', hinsert, hr'⟩
  have halike := hkeeps.alike.symm.trans hab'
  have hdescribe : b₂.describeAll = c.describeAll.moved .zero := by
    refine Circuit.describeAll_copy hkeeps.sound.wired (halike.wired hkeeps.sound.wired) hids
      (halike.gateIds.symm.trans hids) ?_ ?_
    · rw [Circuit.tags, hg]
      exact htags
    · rw [hl, hlinks]
  refine ⟨face', b₂, ids', hcopy, hdescribe, fun hzero => ?_, ?_, ?_, ?_, ?_⟩
  · rw [hdescribe, Description.moved_eq_self hzero]
  · rw [hin, hin']
  · rw [hout, hout']
  · exact congrArg Port.interface (Option.some.inj (halike.port .output .boundary)).symm
  · exact congrArg Port.interface (Option.some.inj (halike.port .input .boundary)).symm

/-- An inverter that feeds itself, from a first value on, and a sub-port of the boundary. -/
def Description.ring : Description := ⟨[⟨"a", "not", none⟩], ["a=>a:1", "a=>outside/*"]⟩

def Gate.ring (input output : List LinkId) : Gate :=
  .function ⟨"not", Position.zero.add .zero, "not",
    { Port.new .input (.bit none) with links := input },
    { Port.new .output (.bit none) with links := output }, none⟩ "not"
    (Registry.inverter.transform? "not")

def Circuit.ring (own out : Option Value) : Circuit Gate where
  gates := [(0, .ring [0] [0, 1])]
  links := ⟨[
    (0, .seeded ⟨.gate 0, []⟩ ⟨.gate 0, []⟩ (.bit none) own),
    (1, .seeded ⟨.gate 0, []⟩ ⟨.boundary, [0]⟩ (.bit none) out)], 2⟩
  innerInput := .new .output (.none none)
  innerOutput := ⟨.input, .collection none [.bit none], [], [⟨.input, .bit none, [1], []⟩]⟩
  registry := .inverter
  nextGate := 1

theorem Value.parse_print_bit (b : Bool) :
    Value.parse (Value.bit none b).print = .ok (.bit none b) := by
  have hword : ∀ c, Grammar.outline [c] = .ok (none, [c], .word) →
      Value.parse [c] = Value.ofPhrase (.word none [c]) := fun c ho => by
    rw [Value.parse, Grammar.Phrase.parse_word ho]
    rfl
  cases b with
  | false => exact hword '0' rfl
  | true => exact hword '1' rfl

theorem EndSpec.legible_a : Legible ⟨.gate "a", []⟩ :=
  ⟨⟨by decide, by decide, unmarked_of_any rfl⟩, nofun⟩

theorem Value.parse_print_high {v : Value} (h : some Value.high = some v) :
    Value.parse v.print = .ok v := by
  cases h
  exact Value.parse_print_bit true

theorem specs_ring : Description.ring.specs = .ok [
    ⟨⟨.gate "a", []⟩, ⟨.gate "a", []⟩, some .high⟩,
    ⟨⟨.gate "a", []⟩, ⟨.outside, [.next]⟩, none⟩] := by
  have hgate := EndSpec.legible_a
  have hboundary : EndSpec.Legible ⟨.outside, [.next]⟩ :=
    ⟨trivial, fun n hn => by cases List.mem_singleton.mp hn⟩
  have hown : LinkSpec.parse "a=>a:1".toList = _ :=
    LinkSpec.parse_text (s := ⟨⟨.gate "a", []⟩, ⟨.gate "a", []⟩, some .high⟩) hgate hgate
      fun _ => Value.parse_print_high
  have hout : LinkSpec.parse "a=>outside/*".toList = _ :=
    LinkSpec.parse_text (s := ⟨⟨.gate "a", []⟩, ⟨.outside, [.next]⟩, none⟩) hgate hboundary nofun
  simp only [Description.specs, Description.ring, List.mapM_cons, List.mapM_nil, hown, hout]
  rfl

theorem insert_ring : ∃ face ids, (Gate.ofCircuit "ring" (.empty .inverter)).insert .ring .zero =
    (.circuit face (.ring (some .high) none), .ok ids) := by
  have hnot := Gate.ofTemplate_transform .inverter "not" rfl rfl
  have hgates : (Circuit.empty .inverter).insertGates (Gate.ofTemplate .inverter) .zero
      ⟨[], [], .new .output default, .new .input default⟩ Description.ring.gates =
      (⟨[(0, .ring [] [])], .empty, .new .output default, .new .input default, .inverter, 1⟩,
        ⟨[("a", 0)], [], .new .output default, .new .input default⟩, .ok ()) := by
    simp only [Description.ring, Circuit.insertGates, hnot]
    rfl
  have hinsert : (Circuit.empty .inverter).insert (Gate.ofTemplate .inverter) .ring .zero =
      ({ Circuit.ring (some .high) none with
          innerInput := .new .output default
          innerOutput := ⟨.input, default, [], [⟨.input, default, [1], []⟩]⟩ },
        .ok ⟨[("a", 0)], [0, 1], .new .output default, .new .input default⟩) := by
    simp only [Circuit.insert, Circuit.insertParts, specs_ring]
    simp only [Circuit.empty] at hgates ⊢
    rw [hgates]
    rfl
  refine ⟨{ Face.new "ring" ⟨default, default⟩ with
      input := .new .input (.none none), output := .new .output (.collection none [.bit none]) },
    [("a", 0)], ?_⟩
  simp only [Circuit.empty] at hinsert
  simp only [Gate.ofCircuit, Gate.insert, Circuit.empty, hinsert]
  rfl

/-- After a tick both links carry what the inverter made of the first value. -/
theorem insert_describeAll_ring : ∃ start ids face,
    (Gate.ofCircuit "ring" (.empty .inverter)).insert .ring .zero = (start, .ok ids) ∧
    start.Ticked (.circuit face (.ring (some .low) (some .low))) ∧ ∃ face' c' ids',
    (Gate.ofCircuit "copy" (.empty .inverter)).insert
        (Circuit.ring (some .low) (some .low)).describeAll .zero = (.circuit face' c', .ok ids') ∧
      c'.describeAll = (Circuit.ring (some .low) (some .low)).describeAll.moved .zero := by
  obtain ⟨face, ids, hinsert⟩ := insert_ring
  have hticked : ∃ face', (Gate.circuit face (.ring (some .high) none)).Ticked
      (.circuit face' (.ring (some .low) (some .low))) := ⟨_, .tick .refl .empty⟩
  obtain ⟨face', hticked⟩ := hticked
  have hreads : ∀ id l v, (Circuit.ring (some .low) (some .low)).links.get? id = some l →
      l.last = some v → Value.parse v.print = .ok v := by
    intro id l v hl hv
    have hlow : ∀ e ∈ (Circuit.ring (some .low) (some .low)).links.entries,
        e.2.last = some .low := by decide
    have hlast := hlow _ (Entries.mem_of_get? hl)
    cases hv.symm.trans hlast
    exact Value.parse_print_bit false
  obtain ⟨copy, c', ids', hcopy, hdescribe, -⟩ := insert_describeAll hinsert hticked hreads "copy"
  exact ⟨_, ids, face', hinsert, hticked, copy, c', ids', hcopy, hdescribe⟩

end TickCircuit
