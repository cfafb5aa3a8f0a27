import TickCircuit.Proofs.Gate.Each
import TickCircuit.Proofs.Gate.RoundTrip
/-!
Running on from a description. A description keeps one value of each link, its last, and no state
of a gate; between ticks that is all there is where no transform has a memory. Main statement: a
circuit that is made from the description of another one goes on as that one does
(`copy_goes_on`).
-/
namespace TickCircuit

namespace Registry

def Assigns (r : Registry) (typeName name : String)
    (f : Option Value → Except TransformFault (Option Value)) : Prop :=
  ∃ template, r.templates.get? typeName = some template ∧
    template.body typeName = .ok (.transform name) ∧ r.transform? name = some (.pure f)

def Memoryless (r : Registry) (typeName : String) : Prop := ∃ name f, r.Assigns typeName name f

end Registry

theorem Builtin.pure_of_stateless {b : Builtin} (hb : b ∈ all) (hstate : b.isStateful = false) :
    ∃ f, b.fresh = .pure f := by
  simp only [all, List.mem_cons, List.not_mem_nil, or_false] at hb
  obtain rfl | rfl | rfl | rfl | rfl | rfl | rfl | rfl | rfl | rfl | rfl := hb
  · exact ⟨_, rfl⟩
  · exact ⟨_, rfl⟩
  · exact ⟨_, rfl⟩
  · exact ⟨_, rfl⟩
  · exact ⟨_, rfl⟩
  · exact ⟨_, rfl⟩
  · exact ⟨_, rfl⟩
  · exact ⟨_, rfl⟩
  · exact ⟨_, rfl⟩
  · cases hstate
  · cases hstate

theorem Registry.memoryless_of_builtin {r : Registry} {typeName name : String} {template : Template}
    (ht : r.templates.get? typeName = some template)
    (hbody : template.body typeName = .ok (.transform name)) {b : Builtin} (hb : b ∈ Builtin.all)
    (hstate : b.isStateful = false) (hname : r.transform? name = some b.fresh) :
    r.Memoryless typeName := by
  obtain ⟨f, hf⟩ := Builtin.pure_of_stateless hb hstate
  exact ⟨name, f, template, ht, hbody, hf ▸ hname⟩

theorem Link.renewed_eq_self {l : Link} (h : l.current = l.last) : l.renewed = l := by
  obtain ⟨source, sink, data, current, last⟩ := l
  cases h
  rfl

namespace Gate

/-- Function gates that do the same, at the same ports. -/
inductive Twin : Gate → Gate → Prop where
  | function {face face' : Face} (name : String)
    (f : Option Value → Except TransformFault (Option Value))
    (input : face.input = face'.input) (output : face.output = face'.output) :
    Twin (.function face name (some (.pure f))) (.function face' name (some (.pure f)))

theorem applyTransform_face {face face' : Face} (input : face.input = face'.input)
    (output : face.output = face'.output) (name : String) (f : Option Transform) (t : LinkTable) :
    applyTransform face name f t = applyTransform face' name f t := by
  obtain ⟨label, position, typeName, i, o, fault⟩ := face
  obtain ⟨label', position', typeName', i', o', fault'⟩ := face'
  cases input
  cases output
  rfl

theorem applyTransform_pure (face : Face) (name : String)
    (f : Option Value → Except TransformFault (Option Value)) (t : LinkTable) :
    (applyTransform face name (some (.pure f)) t).1 = some (.pure f) := by
  cases hv : readInput face t with
  | error e => simp only [applyTransform, hv]
  | ok v =>
    simp only [applyTransform, hv, Transform.run_pure]
    cases f v <;> rfl

theorem Twin.update {g g' : Gate} (h : g.Twin g') (t : LinkTable) :
    (g.update t).1.Twin (g'.update t).1 ∧
      (g.update t).1.face.fault = (g'.update t).1.face.fault := by
  obtain @⟨face, face', name, f, input, output⟩ := h
  have hpure := applyTransform_pure face name f t
  rw [Gate.update, Gate.update, ← applyTransform_face input output]
  rcases hr : applyTransform face name (some (.pure f)) t with ⟨f', u, r⟩
  rw [hr] at hpure
  cases hpure
  refine ⟨.function name f ?_ ?_, ?_⟩ <;> cases r
  · exact input
  · exact input
  · exact output
  · exact output
  · rfl
  · rfl

theorem Twin.emission {g g' : Gate} (h : g.Twin g') (t : LinkTable) :
    g.emission t = g'.emission t := by
  obtain @⟨face, face', name, f, input, output⟩ := h
  have hread : readInput face t = readInput face' t := by rw [readInput, readInput, input]
  have haccepted : face.accepted = face'.accepted := by
    funext v
    rw [Face.accepted, Face.accepted, output]
  simp only [Gate.emission, hread, haccepted]

end Gate

namespace Circuit
variable {a b : Circuit Gate}

/-- Circuits with the same links and gates that do the same. -/
structure Twin (a b : Circuit Gate) : Prop where
  left : a.Sound
  right : b.Sound
  alike : a.Alike b
  links : a.links = b.links
  gates : ∀ {id g}, a.gate? id = some g → ∃ g', b.gate? id = some g' ∧ g.Twin g'

theorem Twin.gate?_eq_none (h : a.Twin b) {id : GateId} (ha : a.gate? id = none) :
    b.gate? id = none := by
  rw [gate?, Entries.get?_eq_none_iff] at ha ⊢
  have hids := h.alike.gateIds
  rw [Circuit.gateIds, Circuit.gateIds] at hids
  rwa [← hids]

/-- A tick in which both take in the same keeps them the same, and they fail alike. -/
theorem Twin.ticked (h : a.Twin b) {own own' : Face} {t u : LinkTable}
    (hintake : a.intake own t = b.intake own' u) :
    (a.ticked own t).Twin (b.ticked own' u) ∧
      ∀ id, ((a.ticked own t).gate? id).map (·.face.fault) =
        ((b.ticked own' u).gate? id).map (·.face.fault) := by
  have hemitted : ∀ n, a.emitted own t n = b.emitted own' u n := by
    intro n
    cases n with
    | gate id =>
      rw [emitted, emitted, ← h.links]
      cases hg : a.gate? id with
      | none => rw [h.gate?_eq_none hg]
      | some g =>
        obtain ⟨g', hg', htwin⟩ := h.gates hg
        rw [hg']
        exact htwin.emission a.links
    | boundary => exact hintake
    | host => rfl
  have hsettled : a.settled own t = b.settled own' u := by
    funext l
    simp only [settled, hemitted]
  have hgate : ∀ {id g}, a.gate? id = some g → ∃ g', b.gate? id = some g' ∧
      (g.update a.links).1.Twin (g'.update b.links).1 ∧
      (g.update a.links).1.face.fault = (g'.update b.links).1.face.fault := by
    intro id g hg
    obtain ⟨g', hg', htwin⟩ := h.gates hg
    exact ⟨g', hg', h.links ▸ htwin.update a.links⟩
  obtain ⟨hleft, hleft', -⟩ := h.left.ticked own t
  obtain ⟨hright, hright', -⟩ := h.right.ticked own' u
  refine ⟨⟨hleft, hright, hleft'.symm.trans (h.alike.trans hright'), ?_, ?_⟩, ?_⟩
  · rw [Circuit.ticked, Circuit.ticked, hsettled, h.links]
  · intro id g₁ hg₁
    rw [gate?_ticked] at hg₁
    obtain ⟨g, hg, rfl⟩ := Option.map_eq_some_iff.mp hg₁
    obtain ⟨g', hg', htwin, -⟩ := hgate hg
    exact ⟨_, by rw [gate?_ticked, hg']; rfl, htwin⟩
  · intro id
    rw [gate?_ticked, gate?_ticked]
    cases hg : a.gate? id with
    | none =>
      rw [h.gate?_eq_none hg]
      rfl
    | some g =>
      obtain ⟨g', hg', -, hfault⟩ := hgate hg
      rw [hg']
      exact congrArg some hfault

end Circuit

namespace Gate
variable {registry : Registry}

/-- The gate is what the registry has for its type, if that has no memory. -/
def Assigned (registry : Registry) (g : Gate) : Prop :=
  ∀ name f, registry.Assigns g.face.typeName name f →
    ∃ face, g = .function face name (some (.pure f))

theorem portBlind_assigned : PortBlind (Assigned registry) := by
  intro k d g h name f hf
  have htype : (g.mapPort k d).face.typeName = g.face.typeName :=
    congrArg Prod.fst (tag_mapPort k d g)
  rw [htype] at hf
  obtain ⟨face, rfl⟩ := h name f hf
  cases d <;> exact ⟨_, rfl⟩

theorem assigned_ofTemplate {typeName : String} {g : Gate} (p : Position)
    (h : ofTemplate registry typeName = .ok g) : (g.moved p).Assigned registry := by
  intro name f hf
  have htype : (g.moved p).face.typeName = typeName := by
    rw [← typeName_ofTemplate h]
    exact congrArg Prod.fst (tag_moved p g)
  rw [htype] at hf
  obtain ⟨template, ht, hb, hname⟩ := hf
  rw [ofTemplate_transform registry typeName ht hb, hname] at h
  cases h
  exact ⟨_, rfl⟩

theorem Assigned.update {g : Gate} (h : g.Assigned registry) (t : LinkTable) :
    (g.update t).1.Assigned registry := by
  intro name f hf
  have htype : (g.update t).1.face.typeName = g.face.typeName := congrArg Prod.fst (g.tag_update t)
  rw [htype] at hf
  obtain ⟨face, rfl⟩ := h name f hf
  have hpure := applyTransform_pure face name f t
  rw [Gate.update]
  rcases hr : applyTransform face name (some (.pure f)) t with ⟨f', u, r⟩
  rw [hr] at hpure
  cases hpure
  exact ⟨_, rfl⟩

theorem Assigned.click {g g' : Gate} {path : List GateId} {handles : List Handle}
    (h : g.Assigned registry) (he : g.editAt Operation.click.run path = some (g', handles))
    (hface : g'.face = g.face) : g'.Assigned registry := by
  intro name f hf
  rw [hface] at hf
  obtain ⟨face, rfl⟩ := h name f hf
  exact ⟨face, editAt_click he⟩

end Gate

namespace Circuit
variable {c c' : Circuit Gate} {registry : Registry}

theorem lasting_assigned : Lasting (Each (Gate.Assigned registry)) where
  ticked {c} _ _ _ h := by
    intro e he
    obtain ⟨e', he', rfl⟩ := List.mem_map.mp he
    exact (h e' he').update c.links
  clicked {c id g g' path handles} _ hg hclick _ hface h := by
    have hnew := (Entries.Each.get? h hg).click hclick hface
    exact Entries.Each.modify h id (f := fun _ => g') fun _ _ => hnew

/-- Nothing is on its way: what a link was last given is what it carries. -/
def Still (c : Circuit Gate) : Prop :=
  ∀ id l, c.links.get? id = some l → l.current = l.last

theorem lasting_still : Lasting Still where
  ticked {c} face outer _ _ id l' hl' := by
    rw [get?_ticked] at hl'
    obtain ⟨l, -, rfl⟩ := Option.map_eq_some_iff.mp hl'
    rfl
  clicked _ _ _ _ _ h := h

theorem Filled.still {d : Description} {ls : List Link} (h : Filled registry d c ls) :
    c.Still := by
  intro id l hl
  obtain ⟨offset, c₀, made, specs, -, -, hj⟩ := h.gates
  have hmem : l ∈ ls := by
    rw [← h.links]
    exact List.mem_map.mpr ⟨(id, l), Entries.mem_of_get? hl, rfl⟩
  obtain ⟨_, _, _, _, -, -, -, hjoins⟩ := hj.mem hmem
  rw [hjoins.current, hjoins.last]

theorem Still.links_eq (h : c.Still) (hc : c.Wired) (hblank : c.links.blank = c'.links.blank)
    (hrenewed : c'.links.entries.map (·.2) = c.links.entries.map (·.2.renewed)) :
    c.links = c'.links := by
  have hentries := congrArg LinkTable.entries hblank
  rw [LinkTable.entries_blank, LinkTable.entries_blank] at hentries
  have hids := congrArg (List.map Prod.fst) hentries
  rw [List.map_map, List.map_map] at hids
  have hsame : c.links.entries.map (·.2.renewed) = c.links.entries.map (·.2) := by
    refine List.map_congr_left fun e he => ?_
    exact Link.renewed_eq_self (h e.1 e.2 (Entries.get?_of_mem hc.links_nodup he))
  rw [hsame] at hrenewed
  have hzip : c'.links.entries = List.zip _ _ := List.zip_of_prod hids.symm hrenewed
  refine LinkTable.ext ?_ (LinkTable.of_blank hblank).2
  rw [hzip]
  exact List.zip_of_prod rfl rfl

theorem get?_typeNames (c : Circuit Gate) (id : GateId) :
    c.typeNames.get? id = (c.gate? id).map (·.face.typeName) := by
  have htags := Entries.get?_map Gate.tag id c.gates
  rw [typeNames, Entries.get?_map Prod.fst id c.tags, tags, htags, Option.map_map]
  rfl

/-- Circuits that are alike and have the same values on their links are the same in all that counts
for a run, where no gate has a memory. -/
theorem Alike.twin (h : c.Alike c') (hc : c.Sound) (hc' : c'.Sound) (hlinks : c.links = c'.links)
    (hplain : ∀ id g, c.gate? id = some g → registry.Memoryless g.face.typeName)
    (hassigned : c.Each (Gate.Assigned registry)) (hassigned' : c'.Each (Gate.Assigned registry)) :
    c.Twin c' where
  left := hc
  right := hc'
  alike := h
  links := hlinks
  gates {id g} hg := by
    have htype := congrArg (Entries.get? id) h.typeNames
    rw [get?_typeNames, get?_typeNames, hg] at htype
    obtain ⟨g', hg', htype⟩ := Option.map_eq_some_iff.mp htype.symm
    obtain ⟨name, f, hf⟩ := hplain id g hg
    obtain ⟨face', hfunction'⟩ := Entries.Each.get? hassigned' hg' name f (htype ▸ hf)
    obtain ⟨face, hfunction⟩ := Entries.Each.get? hassigned hg name f hf
    have hport : ∀ d, g.port d = g'.port d := by
      intro d
      have hp := h.port d (.gate id)
      rw [port?, port?, hg, hg'] at hp
      exact Option.some.inj hp
    subst hfunction
    subst hfunction'
    exact ⟨_, hg', .function name f (hport .input) (hport .output)⟩

/-- Two circuits that tick so many times side by side. At each tick both find the same at their
outer inputs, a value or none; these have the types of the inner ones, and may be linked anew. -/
inductive Abreast (a b : Circuit Gate) : Nat → Circuit Gate → Circuit Gate → Prop where
  | start : Abreast a b 0 a b
  | tick {n : Nat} {a₁ b₁ a₂ b₂ : Circuit Gate} {own own' face face' : Face} {t u : LinkTable}
    {v : Option Value} (h : Abreast a b n a₁ b₁) (feeds : own.Feeds a₁) (feeds' : own'.Feeds b₁)
    (reads : Gate.readInput own t = .ok v) (reads' : Gate.readInput own' u = .ok v)
    (step : ((Gate.circuit own a₁).update t).1 = .circuit face a₂)
    (step' : ((Gate.circuit own' b₁).update u).1 = .circuit face' b₂) :
    Abreast a b (n + 1) a₂ b₂

end Circuit

section
variable {own : Face} {c : Circuit Gate} {t : LinkTable} {v : Option Value}

theorem Face.Feeds.takesIn_of_readInput (h : own.Feeds c) (reads : Gate.readInput own t = .ok v) :
    c.TakesIn own t := by
  refine (h.takesIn_iff t).mpr ?_
  rw [Gate.readInput] at reads
  split at reads
  next hn => exact .inl (h.2 ▸ hn)
  next => exact .inr ⟨v, reads⟩

theorem Face.Feeds.intake_of_readInput (h : own.Feeds c)
    (reads : Gate.readInput own t = .ok v) :
    c.intake own t = v.filter c.innerInput.interface.accepts := by
  rw [Gate.readInput] at reads
  rw [Circuit.intake, ← h.2]
  split at reads
  next hn =>
    cases reads
    cases own.input.read t with
    | error e => rfl
    | ok w => exact Gate.filter_accepts_of_isNone hn w
  next =>
    rw [reads]
    rfl

end

namespace Circuit

theorem Twin.abreast {a b a' b' : Circuit Gate} {n : Nat} (h : a.Twin b)
    (hn : Abreast a b n a' b') : a'.Twin b' ∧ (0 < n → ∀ id,
      (a'.gate? id).map (·.face.fault) = (b'.gate? id).map (·.face.fault)) := by
  induction hn with
  | start => exact ⟨h, fun hn => absurd hn (Nat.lt_irrefl 0)⟩
  | @tick n a₁ b₁ a₂ b₂ own own' face face' t u v _ feeds feeds' reads reads' step step' ih =>
    obtain ⟨htwin, -⟩ := ih
    have htakes := feeds.takesIn_of_readInput reads
    have htakes' := feeds'.takesIn_of_readInput reads'
    obtain ⟨_, _, he, -, -, ⟨-, rfl⟩ | ⟨hno, -⟩⟩ := htwin.left.update_circuit own t
    · obtain ⟨_, _, he', -, -, ⟨-, rfl⟩ | ⟨hno, -⟩⟩ := htwin.right.update_circuit own' u
      · cases he.symm.trans step
        cases he'.symm.trans step'
        have hinput : a₁.innerInput = b₁.innerInput :=
          Option.some.inj (htwin.alike.port .output .boundary)
        have hintake : a₁.intake own t = b₁.intake own' u := by
          rw [feeds.intake_of_readInput reads, feeds'.intake_of_readInput reads', hinput]
        obtain ⟨hnext, hfaults⟩ := htwin.ticked hintake
        exact ⟨hnext, fun _ => hfaults⟩
      · exact absurd htakes' hno
    · exact absurd htakes hno

theorem Resolves.kept {io : Io} {c₁ c₂ c : Circuit Gate} (h : c₁.Resolves io c₂)
    (hkeeps : c₂.Keeps c) : c.links.blank = c₁.links.blank ∧ c.typeNames = c₁.typeNames := by
  have hlinks : c.links.blank = c₁.links.blank := by rw [← hkeeps.alike.links, h.links]
  have hnames : c₁.typeNames = c₂.typeNames := by
    rw [Circuit.typeNames, Circuit.typeNames, Circuit.tags, Circuit.tags, h.gates]
  exact ⟨hlinks, hkeeps.alike.typeNames.symm.trans hnames.symm⟩

theorem Filled.memoryless {registry : Registry} {d : Description} {c c' : Circuit Gate}
    {ls : List Link} (h : Filled registry d c ls) (hnames : c'.typeNames = c.typeNames)
    (hplain : ∀ entry ∈ d.gates, registry.Memoryless entry.typeName) {id : GateId} {g : Gate}
    (hg : c'.gate? id = some g) : registry.Memoryless g.face.typeName := by
  have htype := get?_typeNames c' id
  rw [hnames, h.typeNames, hg] at htype
  obtain ⟨⟨entry, _⟩, hentry, he⟩ := List.mem_map.mp (Entries.mem_of_get? htype)
  have htype : entry.typeName = g.face.typeName := (Prod.mk.inj he).2
  rw [← htype]
  exact hplain entry (List.fst_mem_of_mem_zipIdx hentry)

end Circuit

theorem Gate.filled_of_insert {registry : Registry} {name : String} {d : Description}
    {offset : Position} {start : Gate} {ids : Entries String GateId}
    (made : (Gate.ofCircuit name (.empty registry)).insert d offset = (start, .ok ids)) :
    ∃ face c₁ c ls, start = .circuit face c ∧ Circuit.Filled registry d c₁ ls ∧
      (Gate.ofCircuit name c₁).resolve = (.circuit face c, .ok ()) ∧
      c.Sound ∧ c.Each (Assigned registry) := by
  obtain ⟨c₁, made₁, hi, hr⟩ := insert_eq_ok.mp ⟨ids, made⟩
  have hi : (Circuit.empty registry).insert (ofTemplate registry) d offset = (c₁, .ok made₁) := hi
  obtain ⟨ls, hfilled⟩ := Circuit.filled_insert hi
  have hsound := ((Reachable.circuit name registry).sound.insert d offset).1
  rw [made] at hsound
  have hmake : ∀ typeName g p, ofTemplate registry typeName = .ok g →
      (g.moved p).Assigned registry := fun _ _ p h => assigned_ofTemplate p h
  have hassigned := (Circuit.each_empty registry).insert portBlind_assigned hmake d offset
  rw [hi] at hassigned
  obtain ⟨input, output, hb⟩ := resolve_eq_ok hr
  obtain ⟨-, -, -, -, rfl⟩ := setBoundary_eq_ok.mp hb
  obtain ⟨-, -, hc⟩ := sound_circuit_iff.mp hsound
  exact ⟨_, c₁, _, ls, rfl, hfilled, hr, hc, hassigned⟩

/-- A circuit of memoryless function gates was inserted and then ran. From its description, a copy
can be made, with the gates drawn anywhere; and as long as both find the same at their outer inputs
at each tick, the links of both, in the order of their tables, carry the same, and gates of the same
id fail with the same fault or not at all. -/
theorem copy_goes_on {registry : Registry} {name : String} {d : Description} {offset : Position}
    {start : Gate} {ids : Entries String GateId}
    (made : (Gate.ofCircuit name (.empty registry)).insert d offset = (start, .ok ids))
    (plain : ∀ entry ∈ d.gates, registry.Memoryless entry.typeName)
    {face : Face} {c : Circuit Gate} (ran : start.Ticked (.circuit face c))
    (reads : ∀ id l v, c.links.get? id = some l → l.last = some v → Value.parse v.print = .ok v)
    (copyName : String) (place : Position) :
    ∃ face' c' ids', (Gate.ofCircuit copyName (.empty registry)).insert c.describeAll place =
      (.circuit face' c', .ok ids') ∧
    ∀ n a b, c.Abreast c' n a b → a.gateIds = b.gateIds ∧ a.links = b.links ∧
      (0 < n → ∀ id, (a.gate? id).map (·.face.fault) = (b.gate? id).map (·.face.fault)) := by
  obtain ⟨face₂, c₁, c₂, ls, rfl, hfilled, hr, hc₂, hassigned⟩ := Gate.filled_of_insert made
  have hresolves := Gate.resolves_resolve hr
  -- what holds of the circuit as it was inserted, and after it has run
  obtain ⟨_, _, he, hkeeps, -, -⟩ := ran.keeps hc₂ (hfilled.carries hresolves)
  cases he
  obtain ⟨_, _, he, -, hassigned, -, -⟩ := ran.lasts Circuit.lasting_assigned hc₂ hassigned
  cases he
  have hstill₂ : c₂.Still := fun id l hl => hfilled.still id l (hresolves.links ▸ hl)
  obtain ⟨_, _, he, -, hstill, -, -⟩ := ran.lasts Circuit.lasting_still hc₂ hstill₂
  cases he
  -- the copy
  obtain ⟨hlinks₁, hnames⟩ := hresolves.kept hkeeps
  obtain ⟨b₁, made', n, hinsert, hab, hids, htags, hlinks⟩ := hfilled.againAt hkeeps.sound.wired
    hnames hlinks₁ (fun id l v hl hv => hfilled.accepts hlinks₁ hkeeps.carries hl hv) reads place
  have houter : (Face.new name ⟨default, default⟩).input =
      (Face.new copyName ⟨default, default⟩).input ∧ (Face.new name ⟨default, default⟩).output =
      (Face.new copyName ⟨default, default⟩).output := ⟨rfl, rfl⟩
  obtain ⟨face', c', hr', hab', -, -, hl, -⟩ := hab.resolve houter.1 houter.2 hr
  obtain ⟨ids', hcopy⟩ := Gate.insert_eq_ok (c := .empty registry).mpr ⟨b₁, made', hinsert, hr'⟩
  obtain ⟨_, _, _, _, he, -, -, hc', hassigned'⟩ := Gate.filled_of_insert hcopy
  cases he
  have halike := hkeeps.alike.symm.trans hab'
  have hsame := hstill.links_eq hkeeps.sound.wired halike.links (by rw [hl, hlinks])
  have htwin := halike.twin hkeeps.sound hc' hsame
    (fun id g hg => hfilled.memoryless hnames plain hg) hassigned hassigned'
  refine ⟨face', c', ids', hcopy, fun n a b hn => ?_⟩
  obtain ⟨htwin, hfaults⟩ := htwin.abreast hn
  exact ⟨htwin.alike.gateIds, htwin.links, hfaults⟩

theorem Circuit.reads_ring (b : Bool) (id : LinkId) (l : Link) (v : Value)
    (hl : (ring (some (.bit none b)) (some (.bit none b))).links.get? id = some l)
    (hv : l.last = some v) : Value.parse v.print = .ok v := by
  have hlast : l.last = some (.bit none b) := by
    have hmem := Entries.mem_of_get? hl
    simp only [ring, List.mem_cons, Prod.mk.injEq, List.not_mem_nil, or_false] at hmem
    obtain ⟨-, rfl⟩ | ⟨-, rfl⟩ := hmem <;> rfl
  cases hv.symm.trans hlast
  exact Value.parse_print_bit b

/-- The inverter that feeds itself goes on turning over in the copy. -/
theorem copy_goes_on_ring : ∃ face face' c' ids ids',
    (Gate.ofCircuit "ring" (.empty .inverter)).insert .ring .zero =
      (.circuit face (.ring (some .high) none), .ok ids) ∧
    (Gate.ofCircuit "copy" (.empty .inverter)).insert
      (Circuit.ring (some .low) (some .low)).describeAll .zero = (.circuit face' c', .ok ids') ∧
    ∀ n a b, (Circuit.ring (some .low) (some .low)).Abreast c' n a b → a.links = b.links := by
  obtain ⟨face, ids, hinsert⟩ := insert_ring
  have hticked : ∃ face', (Gate.circuit face (.ring (some .high) none)).Ticked
      (.circuit face' (.ring (some .low) (some .low))) := ⟨_, .tick .refl .empty⟩
  obtain ⟨_, hticked⟩ := hticked
  have hplain : ∀ entry ∈ Description.ring.gates, Registry.inverter.Memoryless entry.typeName := by
    intro entry hentry
    cases List.mem_singleton.mp hentry
    have hnot : Builtin.all[1] ∈ Builtin.all := List.getElem_mem _
    exact Registry.memoryless_of_builtin rfl rfl hnot rfl rfl
  obtain ⟨face', c', ids', hcopy, hrun⟩ := copy_goes_on hinsert hplain hticked
    (Circuit.reads_ring false) "copy" .zero
  exact ⟨face, face', c', ids, ids', hinsert, hcopy, fun n a b hn => (hrun n a b hn).2.1⟩

end TickCircuit
