import TickCircuit.Proofs.Gate.Build
/-!
Circuits that differ only in what their links carry, in the state of their gates and in where these
are drawn. Main statements: the same gates and links can be inserted into both, whatever the links
are to carry (`Alike.insertGates`, `Joined.again`), and their boundaries get the same types
(`Alike.resolve`).
-/
namespace TickCircuit

namespace Gate

/-- What a description keeps of a gate, besides its id. -/
def tag (g : Gate) : String × Position := (g.face.typeName, g.face.position)

theorem tag_mapPort (f : Port → Port) (d : Direction) (g : Gate) : (g.mapPort f d).tag = g.tag := by
  cases g <;> cases d <;> rfl

theorem tag_moved (p : Position) (g : Gate) : (g.moved p).tag = (g.face.typeName, p) := by
  cases g <;> rfl

end Gate

def Link.blank (l : Link) : Link := { l with current := none, last := none }

theorem Link.endAt_of_blank {l m : Link} (h : l.blank = m.blank) (d : Direction) :
    l.endAt d = m.endAt d := by
  have hend : ∀ l : Link, l.blank.endAt d = l.endAt d := fun l => by cases d <;> rfl
  rw [← hend, h, hend]

theorem Link.data_of_blank {l m : Link} (h : l.blank = m.blank) : l.data = m.data := by
  have hdata := congrArg Link.data h
  exact hdata

def Link.renewed (l : Link) : Link := .seeded l.source l.sink l.data l.last

theorem LinkTable.entries_blank (t : LinkTable) :
    t.blank.entries = t.entries.map fun (id, l) => (id, l.blank) := rfl

theorem LinkTable.get?_blank (t : LinkTable) (id : LinkId) :
    t.blank.get? id = (t.get? id).map Link.blank := Entries.get?_map Link.blank id t.entries

theorem Entries.map_put {κ α β : Type} [DecidableEq κ] (f : α → β) (k : κ) (a : α)
    (es : Entries κ α) :
    (es.put k a).map (fun (j, a) => (j, f a)) = Entries.put k (f a) (es.map fun (j, a) => (j, f a)) := by
  induction es with
  | nil => rfl
  | cons e es ih =>
    obtain ⟨j, b⟩ := e
    by_cases hj : j = k <;> simp [put, hj, ih]

namespace Circuit

def tags (c : Circuit Gate) : Entries GateId (String × Position) :=
  c.gates.map fun (id, g) => (id, g.tag)

def typeNames (c : Circuit Gate) : Entries GateId String := c.tags.map fun (id, tag) => (id, tag.1)

/-- The circuits are alike but for values, the state of gates and their positions. -/
structure Alike (a b : Circuit Gate) : Prop where
  typeNames : a.typeNames = b.typeNames
  nextGate : a.nextGate = b.nextGate
  links : a.links.blank = b.links.blank
  port : ∀ d n, a.port? d n = b.port? d n

variable {a a' b : Circuit Gate}

theorem keys_tags (c : Circuit Gate) : c.tags.keys = c.gateIds := by
  simp [tags, gateIds, Entries.keys, Function.comp_def]

theorem keys_typeNames (c : Circuit Gate) : c.typeNames.keys = c.gateIds := by
  rw [← keys_tags]
  simp [typeNames, Entries.keys, Function.comp_def]

theorem Alike.gateIds (h : a.Alike b) : a.gateIds = b.gateIds := by
  rw [← keys_typeNames, h.typeNames, keys_typeNames]

theorem Alike.nextId (h : a.Alike b) : a.links.nextId = b.links.nextId :=
  (LinkTable.of_blank h.links).2

theorem Alike.wired (h : a.Alike b) (ha : a.Wired) : b.Wired :=
  ha.of_same_ports h.gateIds.symm h.nextGate.symm h.links.symm fun d n => (h.port d n).symm

theorem Alike.refl (a : Circuit Gate) : a.Alike a := ⟨rfl, rfl, rfl, fun _ _ => rfl⟩

theorem Alike.symm (h : a.Alike b) : b.Alike a :=
  ⟨h.typeNames.symm, h.nextGate.symm, h.links.symm, fun d n => (h.port d n).symm⟩

theorem Alike.trans {c : Circuit Gate} (h : a.Alike b) (h' : b.Alike c) : a.Alike c :=
  ⟨h.typeNames.trans h'.typeNames, h.nextGate.trans h'.nextGate, h.links.trans h'.links,
    fun d n => (h.port d n).trans (h'.port d n)⟩

theorem Alike.get?_link (h : a.Alike b) {id : LinkId} {l : Link} (hl : b.links.get? id = some l) :
    ∃ l', a.links.get? id = some l' ∧ l'.blank = l.blank := by
  have hget : (a.links.get? id).map Link.blank = some l.blank := by
    rw [← LinkTable.get?_blank, h.links, LinkTable.get?_blank, hl]
    rfl
  exact Option.map_eq_some_iff.mp hget

theorem port?_add (c : Circuit Gate) (g : Gate) (d : Direction) (n : Node) :
    (c.add g).port? d n = if n = .gate c.nextGate then some (g.port d) else c.port? d n := by
  cases n with
  | gate id =>
    simp only [port?, gate?, add, Entries.get?_put, Node.gate.injEq]
    by_cases hid : c.nextGate = id
    · simp [hid]
    · simp [hid, Ne.symm hid]
  | boundary => cases d <;> rfl
  | host => cases d <;> rfl

theorem tags_add (c : Circuit Gate) (g : Gate) :
    (c.add g).tags = c.tags.put c.nextGate g.tag :=
  Entries.map_put Gate.tag c.nextGate g c.gates

theorem Alike.add (h : a.Alike b) {g g' : Gate} (hname : g.tag.1 = g'.tag.1)
    (hport : ∀ d, g.port d = g'.port d) : (a.add g).Alike (b.add g') where
  typeNames := by
    have hnames : ∀ (c : Circuit Gate) (g : Gate),
        (c.add g).typeNames = c.typeNames.put c.nextGate g.tag.1 := fun c g => by
      rw [Circuit.typeNames, tags_add]
      exact Entries.map_put Prod.fst c.nextGate g.tag c.tags
    rw [hnames, hnames, h.typeNames, h.nextGate, hname]
  nextGate := congrArg (· + 1) h.nextGate
  links := h.links
  port d n := by rw [port?_add, port?_add, h.nextGate, hport, h.port]

theorem Alike.insertGates {make : String → Except Fault Gate} {offset : Position}
    {made made₁ : Insertion} {entries entries' : List GateEntry} (h : a.Alike b)
    (hi : a.insertGates make offset made entries = (a', made₁, .ok ()))
    (hnames : entries'.map (·.typeName) = entries.map (·.typeName)) (offset' : Position)
    (made' : Insertion) :
    ∃ b' made₁', b.insertGates make offset' made' entries' = (b', made₁', .ok ()) ∧ a'.Alike b' := by
  induction entries generalizing a b made made' entries' with
  | nil =>
    cases List.map_eq_nil_iff.mp hnames
    cases hi
    exact ⟨b, made', rfl, h⟩
  | cons entry entries ih =>
    cases entries' with
    | nil => cases hnames
    | cons entry' entries' =>
      obtain ⟨hname, hnames⟩ := List.cons.inj hnames
      dsimp only at hname
      rw [Circuit.insertGates] at hi
      rw [Circuit.insertGates, hname]
      cases hm : make entry.typeName with
      | error e =>
        rw [hm] at hi
        cases hi
      | ok g =>
        rw [hm] at hi
        refine ih (h.add ?_ fun d => ?_) hi hnames _
        · rw [Gate.tag_moved, Gate.tag_moved]
        · rw [Gate.port_moved, Gate.port_moved]

theorem view_mapPort {β : Type} {view : Gate → β} {f : Port → Port} {d : Direction}
    (hview : ∀ g : Gate, view (g.mapPort f d) = view g) (c : Circuit Gate) (n : Node) :
    (c.mapPort f d n).gates.map (fun (id, g) => (id, view g)) =
      c.gates.map fun (id, g) => (id, view g) := by
  cases n with
  | gate id =>
    rw [mapPort_gate]
    refine Entries.map_modify (fun g => ?_) c.gates
    exact congrArg (Prod.mk id) (hview g)
  | boundary => cases d <;> rfl
  | host => cases d <;> rfl

theorem tags_mapPort (c : Circuit Gate) (f : Port → Port) (d : Direction) (n : Node) :
    (c.mapPort f d n).tags = c.tags := view_mapPort (Gate.tag_mapPort f d) c n

theorem tags_withLink (c : Circuit Gate) (l : Link) : (c.withLink l).tags = c.tags :=
  (tags_mapPort _ _ _ _).trans (tags_mapPort _ _ _ _)

theorem Joined.view {β : Type} {view : Gate → β}
    (hview : ∀ path id d (g : Gate), view (g.mapPort (fun p => (p.attach path id).1) d) = view g)
    {made : Insertion} {specs : List LinkSpec} {ls : List Link} (h : Joined made a specs ls b) :
    b.gates.map (fun (id, g) => (id, view g)) = a.gates.map fun (id, g) => (id, view g) := by
  induction h with
  | nil c => rfl
  | cons _ _ _ _ ih =>
    rw [ih]
    exact (view_mapPort (hview _ _ _) _ _).trans (view_mapPort (hview _ _ _) _ _)

theorem Joined.tags {made : Insertion} {specs : List LinkSpec} {ls : List Link}
    (h : Joined made a specs ls b) : b.tags = a.tags :=
  h.view fun _ _ d g => g.tag_mapPort _ d

theorem Alike.withLink (h : a.Alike b) (ha : a.Wired) {l m : Link} (hl : l.blank = m.blank) :
    (a.withLink l).Alike (b.withLink m) where
  typeNames := by
    rw [Circuit.typeNames, Circuit.typeNames, tags_withLink, tags_withLink]
    exact h.typeNames
  nextGate := by rw [nextGate_withLink, nextGate_withLink, h.nextGate]
  links := by
    have hentries := congrArg LinkTable.entries h.links
    rw [LinkTable.entries_blank, LinkTable.entries_blank] at hentries
    refine LinkTable.ext ?_ ?_
    · rw [LinkTable.entries_blank, LinkTable.entries_blank, ha.links_withLink,
        (h.wired ha).links_withLink, List.map_append, List.map_append, hentries, h.nextId]
      simp [hl]
    · show (a.withLink l).links.nextId = (b.withLink m).links.nextId
      rw [ha.links_withLink, (h.wired ha).links_withLink, h.nextId]
  port d n := by
    rw [port?_withLink, port?_withLink, h.port, h.nextId, Link.endAt_of_blank hl]

theorem Joins.again (h : a.Alike b) {start end_ : LinkEnd} {literal : Option Value} {l m : Link}
    (hj : Joins a start end_ literal l) (hm : m.blank = l.blank)
    (haccepts : ∀ v, m.last = some v → m.data.accepts v) :
    Joins b ⟨m.source.node, Path.spec m.source.path⟩ ⟨m.sink.node, Path.spec m.sink.path⟩ m.last
      m.renewed := by
  have hsource : m.source = l.source := Link.endAt_of_blank hm .output
  have hsink : m.sink = l.sink := Link.endAt_of_blank hm .input
  have hdata := Link.data_of_blank hm
  obtain ⟨p, leaf, hp, hr, hs, hd⟩ := hj.source
  obtain ⟨q, goal, hq, hg, hk, hl⟩ := hj.sink
  rw [hs] at hsource
  rw [hk] at hsink
  exact {
    source := by
      rw [hsource]
      exact ⟨p, leaf, h.port _ _ ▸ hp, Port.resolve_spec hr, hsource, hdata.trans hd⟩
    sink := by
      rw [hsink]
      refine ⟨q, goal, h.port _ _ ▸ hq, Port.resolve_spec hg, hsink, ?_⟩
      rw [← hl, ← hdata]
      rfl
    accepts := haccepts
    current := rfl
    last := rfl }

theorem Joined.again {made made' : Insertion} {specs : List LinkSpec} {ls ms : List Link}
    (h : a.Alike b) (ha : a.Wired) (hj : Joined made a specs ls a') (spec : Link → LinkSpec)
    (hms : ms.map Link.blank = ls.map Link.blank)
    (hspec : ∀ m ∈ ms, linkEnd made' (spec m).source = .ok ⟨m.source.node, Path.spec m.source.path⟩ ∧
      linkEnd made' (spec m).sink = .ok ⟨m.sink.node, Path.spec m.sink.path⟩ ∧
      (spec m).literal = m.last)
    (haccepts : ∀ m ∈ ms, ∀ v, m.last = some v → m.data.accepts v) :
    ∃ b', Joined made' b (ms.map spec) (ms.map Link.renewed) b' ∧ a'.Alike b' := by
  induction hj generalizing b ms with
  | nil a =>
    cases List.map_eq_nil_iff.mp hms
    exact ⟨b, .nil b, h⟩
  | @cons a a' lspec specs l ls start end_ _ _ joins _ ih =>
    cases ms with
    | nil => cases hms
    | cons m ms =>
      obtain ⟨hm, hms⟩ := List.cons.inj hms
      obtain ⟨hsource, hsink, hliteral⟩ := hspec m List.mem_cons_self
      have hagain := joins.again h hm (haccepts m List.mem_cons_self)
      rw [← hliteral] at hagain
      have hl : l.blank = m.renewed.blank := hm.symm
      obtain ⟨b', hj', hb'⟩ := ih (h.withLink ha hl) (ha.withLink joins) hms
        (fun m' hm' => hspec m' (List.mem_cons_of_mem _ hm'))
        fun m' hm' => haccepts m' (List.mem_cons_of_mem _ hm')
      exact ⟨b', .cons hsource hsink hagain hj', hb'⟩

theorem Alike.source (h : a.Alike b) (n : Node) : a.source n = b.source n := by
  have hport := h.port .output n
  cases n with
  | gate id =>
    have hsource : ∀ c : Circuit Gate, c.source (.gate id) =
        (c.port? .output (.gate id)).elim (.error (.gateNotFound id)) .ok := fun c => by
      cases hg : c.gate? id <;> simp [Circuit.source, port?, hg, Gate.port]
    rw [hsource, hsource, hport]
  | boundary => exact congrArg Except.ok (Option.some.inj hport)
  | host => rfl

theorem Alike.sink (h : a.Alike b) (n : Node) : a.sink n = b.sink n := by
  have hport := h.port .input n
  cases n with
  | gate id =>
    have hsink : ∀ c : Circuit Gate, c.sink (.gate id) =
        (c.port? .input (.gate id)).elim (.error (.gateNotFound id)) .ok := fun c => by
      cases hg : c.gate? id <;> simp [Circuit.sink, port?, hg, Gate.port]
    rw [hsink, hsink, hport]
  | boundary => exact congrArg Except.ok (Option.some.inj hport)
  | host => rfl

theorem Alike.linkType (h : a.Alike b) (id : LinkId) : a.linkType id = b.linkType id := by
  have hlinks : (a.links.get? id).map Link.blank = (b.links.get? id).map Link.blank := by
    rw [← LinkTable.get?_blank, h.links, LinkTable.get?_blank]
  rw [Circuit.linkType, Circuit.linkType]
  cases hl : a.links.get? id with
  | none =>
    rw [hl] at hlinks
    rw [Option.map_eq_none_iff.mp hlinks.symm]
    rfl
  | some l =>
    rw [hl] at hlinks
    obtain ⟨m, hm, hblank⟩ := Option.map_eq_some_iff.mp hlinks.symm
    have hsource : m.source = l.source := Link.endAt_of_blank hblank .output
    have hsink : m.sink = l.sink := Link.endAt_of_blank hblank .input
    rw [hm]
    simp only [Option.elim_some, bind, Except.bind, hsource, hsink, h.source, h.sink]

theorem Alike.boundaryTypes (h : a.Alike b) : a.boundaryTypes = b.boundaryTypes := by
  have htype : a.linkType = b.linkType := funext h.linkType
  have hinput : a.innerInput = b.innerInput := Option.some.inj (h.port .output .boundary)
  have houtput : a.innerOutput = b.innerOutput := Option.some.inj (h.port .input .boundary)
  rw [Circuit.boundaryTypes, Circuit.boundaryTypes, htype, hinput, houtput]

theorem Alike.resolve (h : a.Alike b) {face face' face₁ : Face} {a₁ : Circuit Gate}
    (hinput : face.input = face'.input) (houtput : face.output = face'.output)
    (hr : (Gate.circuit face a).resolve = (.circuit face₁ a₁, .ok ())) :
    ∃ face₁' b₁, (Gate.circuit face' b).resolve = (.circuit face₁' b₁, .ok ()) ∧ a₁.Alike b₁ ∧
      face₁.input = face₁'.input ∧ face₁.output = face₁'.output ∧ b₁.links = b.links ∧
      b₁.gates = b.gates := by
  obtain ⟨input, output, ht, hb⟩ := Gate.resolve_iff.mp hr
  obtain ⟨hfi, hci, hfo, hco, he⟩ := Gate.setBoundary_eq_ok.mp hb
  obtain ⟨rfl, rfl⟩ := Gate.circuit.inj he
  have hin : a.innerInput = b.innerInput := Option.some.inj (h.port .output .boundary)
  have hout : a.innerOutput = b.innerOutput := Option.some.inj (h.port .input .boundary)
  rw [hinput] at hfi
  rw [houtput] at hfo
  rw [hin] at hci
  rw [hout] at hco
  rw [h.boundaryTypes] at ht
  have hb' := Gate.setBoundary_eq_ok.mpr ⟨hfi, hci, hfo, hco, rfl⟩
  refine ⟨_, _, Gate.resolve_iff.mpr ⟨input, output, ht, hb'⟩, ⟨h.typeNames, h.nextGate, h.links,
    fun d n => ?_⟩, ?_, ?_, rfl, rfl⟩
  · cases n with
    | gate id => exact h.port d (.gate id)
    | boundary => cases d <;> simp only [port?, hin, hout]
    | host => cases d <;> rfl
  · simp only [hinput]
  · simp only [houtput]

end Circuit
end TickCircuit
