import Mathlib.Data.List.Chain
import TickCircuit.Proofs.Gate.Faults
/-!
Expansion of templates, with the names that are being expanded as a stack. Main statements: with a
bound on the depth, which the names of the registry give, every expansion comes to an end and leaves
the stack as it found it (`expand_eq`); it succeeds only where no template below uses itself
(`acyclic_of_ofTemplateWithin`), and a refusal for recursion shows a template that does
(`traces_of_ofTemplateWithin`).
-/
namespace TickCircuit

def Fault.NotRecursive (e : Fault) : Prop := ∀ chain, e ≠ .recursiveTemplate chain

theorem Fault.OfWiring.notRecursive {e : Fault} (h : e.OfWiring) : e.NotRecursive := by
  rintro chain rfl
  obtain h | h := h <;> cases h

theorem EndSpec.parse_fails (link text : List Char) :
    FailsOnly Fault.NotRecursive (EndSpec.parse link text) := by
  rw [EndSpec.parse]
  dsimp only
  split
  · exact .error (by simp [Fault.NotRecursive])
  · split
    · exact .error (by simp [Fault.NotRecursive])
    · exact .ok _

theorem LinkSpec.parse_fails (text : List Char) :
    FailsOnly Fault.NotRecursive (LinkSpec.parse text) := by
  have hends : ∀ (sink : List Char) (literal : Option Value) (source : List Char),
      FailsOnly Fault.NotRecursive (do
        let source ← EndSpec.parse text source
        let sink ← EndSpec.parse text sink
        return (⟨source, sink, literal⟩ : LinkSpec)) := fun sink literal source =>
    .bind (EndSpec.parse_fails _ _) fun _ => .bind (EndSpec.parse_fails _ _) fun _ => .ok _
  refine .bind (.elim (by simp [Fault.NotRecursive]) _ .ok) fun halves => ?_
  dsimp only
  split
  · exact hends _ _ _
  · split
    · exact .error (by simp [Fault.NotRecursive])
    · exact hends _ _ _

theorem Description.specs_fails (d : Description) : FailsOnly Fault.NotRecursive d.specs := by
  intro e h
  obtain ⟨link, -, h⟩ := mapM_eq_error h
  exact LinkSpec.parse_fails _ e h

namespace Circuit
variable {make : String → Except Fault Gate} {offset : Position}

theorem insertGates_error {c : Circuit Gate} {made : Insertion} {entries : List GateEntry}
    {e : Fault} (h : (c.insertGates make offset made entries).2.2 = .error e) :
    ∃ entry ∈ entries, make entry.typeName = .error e := by
  induction entries generalizing c made with
  | nil => cases h
  | cons entry entries ih =>
    rw [insertGates] at h
    cases hm : make entry.typeName with
    | error e' =>
      rw [hm] at h
      cases h
      exact ⟨entry, List.mem_cons_self, hm⟩
    | ok g =>
      rw [hm] at h
      obtain ⟨entry', hentry, he⟩ := ih h
      exact ⟨entry', List.mem_cons_of_mem _ hentry, he⟩

theorem insertGates_made {c : Circuit Gate} {made : Insertion} {entries : List GateEntry}
    (h : (c.insertGates make offset made entries).2.2 = .ok ()) :
    ∀ entry ∈ entries, ∃ g, make entry.typeName = .ok g := by
  induction entries generalizing c made with
  | nil => exact fun _ h => by cases h
  | cons entry entries ih =>
    rw [insertGates] at h
    cases hm : make entry.typeName with
    | error e' =>
      rw [hm] at h
      cases h
    | ok g =>
      rw [hm] at h
      exact List.forall_mem_cons.mpr ⟨⟨g, hm⟩, ih h⟩

theorem linkEnd_fails (made : Insertion) (e : EndSpec) :
    FailsOnly Fault.NotRecursive (linkEnd made e) := by
  rw [linkEnd]
  split
  · exact .ok _
  · exact .elim (by simp [Fault.NotRecursive]) _ fun _ => .ok _

theorem insertLink_fails (c : Circuit Gate) (made : Insertion) (spec : LinkSpec) :
    FailsOnly Fault.NotRecursive (c.insertLink made spec).2 := by
  rw [insertLink]
  split
  next e hs => exact .error (linkEnd_fails made spec.source e hs)
  next e hs _ => exact .error (linkEnd_fails made spec.sink e hs)
  next => exact (connect_fails c _ _ _).mono fun _ => Fault.OfWiring.notRecursive

theorem insertLinks_fails (c : Circuit Gate) (made : Insertion) (specs : List LinkSpec) :
    FailsOnly Fault.NotRecursive (c.insertLinks made specs).2.2 := by
  induction specs generalizing c made with
  | nil => exact .ok _
  | cons spec specs ih =>
    rw [insertLinks]
    have hspec := insertLink_fails c made spec
    rcases h : c.insertLink made spec with ⟨c', e | id⟩
    · exact .error (hspec e (by rw [h]))
    · exact ih c' _

theorem insert_recursive {c : Circuit Gate} {d : Description} {chain : List String}
    (h : (c.insert make d offset).2 = .error (.recursiveTemplate chain)) :
    ∃ entry ∈ d.gates, make entry.typeName = .error (.recursiveTemplate chain) := by
  rw [insert, insertParts] at h
  rcases hg : c.insertGates make offset ⟨[], [], c.innerInput, c.innerOutput⟩ d.gates with
    ⟨c₀, made, e | ⟨⟩⟩
  · rw [hg] at h
    cases h
    exact insertGates_error (by rw [hg])
  · rw [hg] at h
    dsimp only at h
    cases hd : d.specs with
    | error e =>
      rw [hd] at h
      cases h
      exact absurd rfl (d.specs_fails _ hd chain)
    | ok specs =>
      rw [hd] at h
      dsimp only at h
      rcases hi : c₀.insertLinks made specs with ⟨c₁, made₁, e | ⟨⟩⟩
      · rw [hi] at h
        cases h
        exact absurd rfl (insertLinks_fails c₀ made specs _ (by rw [hi]) chain)
      · rw [hi] at h
        cases h

theorem insert_made {c c' : Circuit Gate} {d : Description} {made : Insertion}
    (h : c.insert make d offset = (c', .ok made)) :
    ∀ entry ∈ d.gates, ∃ g, make entry.typeName = .ok g := by
  rw [insert, insertParts] at h
  rcases hg : c.insertGates make offset ⟨[], [], c.innerInput, c.innerOutput⟩ d.gates with
    ⟨c₀, made₀, e | ⟨⟩⟩
  · rw [hg] at h
    cases h
  · exact insertGates_made (by rw [hg])

end Circuit

def Registry.circuit? (r : Registry) (name : String) : Option Description :=
  r.templates.get? name >>= (·.circuit)

def Registry.Uses (r : Registry) (a b : String) : Prop :=
  ∃ d, r.circuit? a = some d ∧ ∃ entry ∈ d.gates, entry.typeName = b

/-- A template that uses itself can be reached from `name`. -/
def Registry.Cyclic (r : Registry) (name : String) : Prop :=
  ∃ a, Relation.ReflTransGen r.Uses name a ∧ Relation.TransGen r.Uses a a

/-- A chain of templates from `name` on, each used by the one before it, that ends where it has
been before. -/
structure Registry.Loop (r : Registry) (name : String) (chain : List String) : Prop where
  head : chain.head? = some name
  uses : chain.IsChain r.Uses
  again : ∃ before last, chain = before ++ [last] ∧ last ∈ before

theorem Template.body_eq_circuit {t : Template} {name : String} {d : Description}
    (h : t.body name = .ok (.circuit d)) : t.circuit = some d := by
  unfold body at h
  split at h
  · cases h
  next hc =>
    cases h
    exact hc
  · cases h

namespace Gate
variable {registry : Registry}

theorem ofTemplateWithin_eq (registry : Registry) (expanding : List String) (typeName : String) :
    ofTemplateWithin registry expanding typeName =
      match registry.templates.get? typeName with
      | none => .error (.unknownGateType typeName)
      | some template =>
        match template.body typeName with
        | .error e => .error e
        | .ok (.transform name) =>
          .ok (.ofTransform typeName template.io name (registry.transform? name))
        | .ok (.circuit d) =>
          if typeName ∈ expanding then .error (.recursiveTemplate (expanding ++ [typeName]))
          else
            match (Circuit.empty registry).insert
              (ofTemplateWithin registry (expanding ++ [typeName])) d .zero with
            | (_, .error e) => .error e
            | (c, .ok _) => close typeName template.io c := by
  rw [ofTemplateWithin]
  split
  next h => rw [h]
  next template h =>
    rw [h]
    dsimp only
    cases template.body typeName with
    | error e => rfl
    | ok body =>
      cases body with
      | transform name => rfl
      | circuit d =>
        by_cases hx : typeName ∈ expanding
        · exact (dif_pos hx).trans (if_pos hx).symm
        · exact (dif_neg hx).trans (if_neg hx).symm

end Gate

/-- A computation on the stack of names that are being expanded. It has no outcome where it nests
deeper than it may. -/
abbrev OnStack (α : Type) := StateT (List String) Option α

namespace Circuit
variable (make : String → OnStack (Except Fault Gate))

def insertGatesOn (offset : Position) (c : Circuit Gate) (made : Insertion) :
    List GateEntry → OnStack (Circuit Gate × Insertion × Except Fault Unit)
  | [] => return (c, made, .ok ())
  | entry :: entries => do
    match ← make entry.typeName with
    | .error e => return (c, made, .error e)
    | .ok g =>
      let g := g.moved ((entry.position.getD .zero).add offset)
      insertGatesOn offset (c.add g)
        { made with gates := made.gates.put entry.id c.nextGate } entries

def insertPartsOn (d : Description) (offset : Position) (c : Circuit Gate) (made : Insertion) :
    OnStack (Circuit Gate × Insertion × Except Fault Unit) := do
  match ← c.insertGatesOn make offset made d.gates with
  | (c, made, .error e) => return (c, made, .error e)
  | (c, made, .ok ()) =>
    match d.specs with
    | .error e => return (c, made, .error e)
    | .ok specs => return c.insertLinks made specs

def insertOn (d : Description) (offset : Position) (c : Circuit Gate) :
    OnStack (Circuit Gate × Except Fault Insertion) := do
  match ← c.insertPartsOn make d offset ⟨[], [], c.innerInput, c.innerOutput⟩ with
  | (c, made, .ok ()) => return (c, .ok made)
  | (c, made, .error e) => return (c.rollback made, .error e)

end Circuit

/-- The expansion of a template on one stack, nested at most `depth` deep. A name is on the stack
while its circuit is filled, and is taken off before it is known whether that has worked. -/
def Gate.expand (registry : Registry) : Nat → String → OnStack (Except Fault Gate)
  | 0, _ => failure
  | depth + 1, typeName => do
    match registry.templates.get? typeName with
    | none => return .error (.unknownGateType typeName)
    | some template =>
      match template.body typeName with
      | .error e => return .error e
      | .ok (.transform name) =>
        return .ok (.ofTransform typeName template.io name (registry.transform? name))
      | .ok (.circuit d) =>
        let names ← get
        if typeName ∈ names then return .error (.recursiveTemplate (names ++ [typeName]))
        else
          set (names ++ [typeName])
          let (c, inserted) ← (Circuit.empty registry).insertOn (expand registry depth) d .zero
          modify List.dropLast
          match inserted with
          | .error e => return .error e
          | .ok _ => return close typeName template.io c

namespace Circuit
variable {stacked : String → OnStack (Except Fault Gate)} {make : String → Except Fault Gate}
  {names : List String}

theorem insertGatesOn_eq (h : ∀ name, (stacked name).run names = some (make name, names))
    (offset : Position) (c : Circuit Gate) (made : Insertion) (entries : List GateEntry) :
    (c.insertGatesOn stacked offset made entries).run names =
      some (c.insertGates make offset made entries, names) := by
  induction entries generalizing c made with
  | nil => rfl
  | cons entry entries ih =>
    rw [insertGatesOn, insertGates, StateT.run_bind, h]
    cases make entry.typeName with
    | error e => rfl
    | ok g => exact ih _ _

theorem insertPartsOn_eq (h : ∀ name, (stacked name).run names = some (make name, names))
    (d : Description) (offset : Position) (c : Circuit Gate) (made : Insertion) :
    (c.insertPartsOn stacked d offset made).run names =
      some (c.insertParts make d offset made, names) := by
  rw [insertPartsOn, insertParts, StateT.run_bind, insertGatesOn_eq h]
  rcases c.insertGates make offset made d.gates with ⟨c, made, e | ⟨⟩⟩
  · rfl
  · cases hd : d.specs with
    | error e => rfl
    | ok specs => rfl

theorem insertOn_eq (h : ∀ name, (stacked name).run names = some (make name, names))
    (d : Description) (offset : Position) (c : Circuit Gate) :
    (c.insertOn stacked d offset).run names = some (c.insert make d offset, names) := by
  rw [insertOn, insert, StateT.run_bind, insertPartsOn_eq h]
  rcases c.insertParts make d offset ⟨[], [], c.innerInput, c.innerOutput⟩ with ⟨c, made, e | ⟨⟩⟩
  · rfl
  · rfl

end Circuit

namespace Gate

theorem expand_eq (registry : Registry) {names : List String} {depth : Nat}
    (h : (registry.unexpanded names).length < depth) (typeName : String) :
    (expand registry depth typeName).run names =
      some (ofTemplateWithin registry names typeName, names) := by
  induction depth generalizing names typeName with
  | zero => omega
  | succ depth ih =>
    rw [ofTemplateWithin_eq, expand]
    cases ht : registry.templates.get? typeName with
    | none => rfl
    | some template =>
      cases hb : template.body typeName with
      | error e => simp [hb]
      | ok body =>
        cases body with
        | transform name => simp [hb]
        | circuit d =>
          by_cases hx : typeName ∈ names
          · simp [hb, hx]
          · have hlt := Registry.length_unexpanded_lt (Entries.mem_keys_of_get? ht) hx
            have hgates := @ih (names ++ [typeName]) (by omega)
            have hi := Circuit.insertOn_eq hgates d .zero (.empty registry)
            rcases hr : (Circuit.empty registry).insert
                (ofTemplateWithin registry (names ++ [typeName])) d .zero with ⟨c, e | made⟩
            · simp [hb, hx, hi, hr]
            · simp [hb, hx, hi, hr]

/-- A template with a circuit is expanded only where it is not being expanded, and only where all
of its gates can be made inside. -/
theorem made_of_ofTemplateWithin {names : List String} {typeName : String} {g : Gate}
    {d : Description} (h : ofTemplateWithin registry names typeName = .ok g)
    (hd : registry.circuit? typeName = some d) :
    typeName ∉ names ∧ ∀ entry ∈ d.gates, ∃ g,
      ofTemplateWithin registry (names ++ [typeName]) entry.typeName = .ok g := by
  obtain ⟨template, ht, hc⟩ := Option.bind_eq_some_iff.mp hd
  rw [ofTemplateWithin_eq, ht] at h
  dsimp only at h
  cases hb : template.body typeName with
  | error e =>
    rw [hb] at h
    cases h
  | ok body =>
    cases body with
    | transform name =>
      unfold Template.body at hb
      rw [hc] at hb
      split at hb <;> simp_all
    | circuit d' =>
      have hd' := Template.body_eq_circuit hb
      rw [hc] at hd'
      cases hd'
      rw [hb] at h
      dsimp only at h
      split at h
      · cases h
      next hx =>
        refine ⟨hx, ?_⟩
        rcases hi : (Circuit.empty registry).insert
            (ofTemplateWithin registry (names ++ [typeName])) d .zero with ⟨c, e | made⟩
        · rw [hi] at h
          cases h
        · exact Circuit.insert_made hi

/-- Whatever a template uses, directly or not, is made within more names. -/
theorem made_along {names : List String} {a b : String}
    (hp : Relation.ReflTransGen registry.Uses a b)
    (h : ∃ g, ofTemplateWithin registry names a = .ok g) :
    ∃ more g, ofTemplateWithin registry (names ++ more) b = .ok g := by
  induction hp with
  | refl =>
    obtain ⟨g, h⟩ := h
    exact ⟨[], g, by rwa [List.append_nil]⟩
  | @tail b _ _ hu ih =>
    obtain ⟨more, g, hg⟩ := ih
    obtain ⟨d, hd, entry, hentry, rfl⟩ := hu
    obtain ⟨g', hg'⟩ := (made_of_ofTemplateWithin hg hd).2 entry hentry
    exact ⟨more ++ [b], g', by rwa [← List.append_assoc]⟩

/-- An expansion that succeeds has met no cycle, for inside its own expansion a template would have
been refused. -/
theorem acyclic_of_ofTemplateWithin {names : List String} {typeName : String} {g : Gate}
    (h : ofTemplateWithin registry names typeName = .ok g) : ¬ registry.Cyclic typeName := by
  rintro ⟨a, hreach, hcycle⟩
  obtain ⟨more, g₁, h₁⟩ := made_along hreach ⟨g, h⟩
  obtain ⟨b, hab, hba⟩ := Relation.TransGen.head'_iff.mp hcycle
  obtain ⟨d, hd, entry, hentry, rfl⟩ := hab
  have hinside := (made_of_ofTemplateWithin h₁ hd).2 entry hentry
  obtain ⟨more', g₂, h₂⟩ := made_along hba hinside
  have hfresh := (made_of_ofTemplateWithin h₂ hd).1
  simp at hfresh

/-- A refusal for recursion shows how the refused template has been come to. -/
theorem refused_of_ofTemplateWithin {names : List String} {typeName : String} {chain : List String}
    (h : ofTemplateWithin registry names typeName = .error (.recursiveTemplate chain)) :
    (typeName ∈ names ∧ chain = names ++ [typeName]) ∨
      ∃ d, registry.circuit? typeName = some d ∧ typeName ∈ registry.templates.keys ∧
        typeName ∉ names ∧ ∃ entry ∈ d.gates,
          ofTemplateWithin registry (names ++ [typeName]) entry.typeName =
            .error (.recursiveTemplate chain) := by
  rw [ofTemplateWithin_eq] at h
  cases ht : registry.templates.get? typeName with
  | none =>
    rw [ht] at h
    cases h
  | some template =>
    rw [ht] at h
    dsimp only at h
    cases hb : template.body typeName with
    | error e =>
      rw [hb] at h
      cases h
      unfold Template.body at hb
      split at hb <;> cases hb
    | ok body =>
      rw [hb] at h
      cases body with
      | transform name => cases h
      | circuit d =>
        dsimp only at h
        split at h
        next hx =>
          cases h
          exact .inl ⟨hx, rfl⟩
        next hx =>
          have hd : registry.circuit? typeName = some d :=
            Option.bind_eq_some_iff.mpr ⟨template, ht, Template.body_eq_circuit hb⟩
          refine .inr ⟨d, hd, Entries.mem_keys_of_get? ht, hx, ?_⟩
          rcases hi : (Circuit.empty registry).insert
              (ofTemplateWithin registry (names ++ [typeName])) d .zero with ⟨c, e | made⟩
          · rw [hi] at h
            cases h
            exact Circuit.insert_recursive (by rw [hi])
          · rw [hi] at h
            exact absurd rfl ((close_fails _ _ _ _ h).notRecursive chain)

/-- The chain of a refusal goes on from the names being expanded, through templates each of which
uses the next, up to one that is there already. -/
theorem traces_of_ofTemplateWithin {names : List String} {typeName : String} {chain : List String}
    (h : ofTemplateWithin registry names typeName = .error (.recursiveTemplate chain)) :
    ∃ path, chain = names ++ path ∧ path.head? = some typeName ∧ path.IsChain registry.Uses ∧
      ∃ before last, chain = before ++ [last] ∧ last ∈ before := by
  obtain ⟨hx, rfl⟩ | ⟨d, hd, hr, hx, entry, hentry, hinner⟩ := refused_of_ofTemplateWithin h
  · exact ⟨[typeName], rfl, rfl, .singleton _, names, typeName, rfl, hx⟩
  · obtain ⟨path, hchain, hhead, huses, hagain⟩ := traces_of_ofTemplateWithin hinner
    refine ⟨typeName :: path, by rw [hchain, List.append_assoc]; rfl, rfl, ?_, hagain⟩
    refine List.isChain_cons.mpr ⟨fun b hb => ?_, huses⟩
    rw [hhead] at hb
    cases hb
    exact ⟨d, hd, entry, hentry, rfl⟩
termination_by (registry.unexpanded names).length
decreasing_by exact Registry.length_unexpanded_lt hr hx

end Gate

theorem Registry.Loop.cyclic {r : Registry} {name : String} {chain : List String}
    (h : r.Loop name chain) : r.Cyclic name := by
  obtain ⟨before, last, rfl, hmem⟩ := h.again
  obtain ⟨p, q, rfl⟩ := List.append_of_mem hmem
  have huses : ((p ++ [last]) ++ (q ++ [last])).IsChain r.Uses := by simpa using h.uses
  refine ⟨last, ?_, ?_⟩
  · have hreach := List.relationReflTransGen_of_exists_isChain (p ++ [last]) huses.left_of_append
      (by simp)
    have hhead : (p ++ [last]).head (by simp) = name := by
      have hname := h.head
      cases p <;> simpa using hname
    rwa [hhead, List.getLast_append_singleton] at hreach
  · have hcycle : (p ++ (last :: (q ++ [last]))).IsChain r.Uses := by simpa using h.uses
    obtain ⟨b, rest, hrest⟩ := List.exists_cons_of_ne_nil (l := q ++ [last]) (by simp)
    have hback := hcycle.right_of_append
    rw [hrest, List.isChain_cons_cons] at hback
    refine .head' hback.1 (List.relationReflTransGen_of_exists_isChain_cons rest hback.2 ?_)
    simp [← hrest]

/-- What the outcome of an expansion from some templates says of recursion: success, that there is
none, and a refusal for it, where it is. -/
structure Registry.Judges {α : Type} (r : Registry) (roots : List String)
    (outcome : Except Fault α) : Prop where
  acyclic : ∀ a, outcome = .ok a → ∀ name ∈ roots, ¬ r.Cyclic name
  refused : ∀ chain, outcome = .error (.recursiveTemplate chain) →
    ∃ name ∈ roots, r.Loop name chain ∧ r.Cyclic name

theorem Registry.Judges.ok {α : Type} {r : Registry} {roots : List String} (a : α)
    (h : ∀ name ∈ roots, ¬ r.Cyclic name) : r.Judges roots (.ok a) where
  acyclic _ _ := h
  refused chain h := by cases h

theorem Registry.Judges.error {α : Type} {r : Registry} {roots : List String} {e : Fault}
    (h : ∀ chain, e = .recursiveTemplate chain → ∃ name ∈ roots, r.Loop name chain) :
    r.Judges roots (.error e : Except Fault α) where
  acyclic a h := by cases h
  refused chain he := by
    cases he
    obtain ⟨name, hname, hloop⟩ := h chain rfl
    exact ⟨name, hname, hloop, hloop.cyclic⟩

namespace Gate

theorem loop_of_ofTemplate {registry : Registry} {typeName : String} {chain : List String}
    (h : ofTemplate registry typeName = .error (.recursiveTemplate chain)) :
    registry.Loop typeName chain := by
  obtain ⟨path, rfl, hhead, huses, hagain⟩ := traces_of_ofTemplateWithin h
  exact ⟨hhead, huses, hagain⟩

theorem judges_ofTemplate (registry : Registry) (typeName : String) :
    registry.Judges [typeName] (ofTemplate registry typeName) := by
  cases hg : ofTemplate registry typeName with
  | error e =>
    refine .error fun chain he => ⟨typeName, List.mem_singleton_self _, ?_⟩
    rw [he] at hg
    exact loop_of_ofTemplate hg
  | ok g =>
    refine .ok g ?_
    rw [List.forall_mem_singleton]
    exact acyclic_of_ofTemplateWithin hg

theorem judges_create (c : Circuit Gate) (typeName : String) :
    c.registry.Judges [typeName] (c.create typeName).2 := by
  have hj := judges_ofTemplate c.registry typeName
  rw [Circuit.create]
  cases hg : ofTemplate c.registry typeName with
  | error e =>
    rw [hg] at hj
    refine .error fun chain he => ?_
    obtain ⟨name, hname, hloop, -⟩ := hj.refused chain (congrArg _ he)
    exact ⟨name, hname, hloop⟩
  | ok g => exact .ok _ (hj.acyclic g hg)

theorem judges_insert (face : Face) (c : Circuit Gate) (d : Description) (offset : Position) :
    c.registry.Judges (d.gates.map (·.typeName)) ((Gate.circuit face c).insert d offset).2 := by
  rw [Gate.insert]
  rcases hi : c.insert (ofTemplate c.registry) d offset with ⟨c', e | made⟩
  · refine .error fun chain he => ?_
    obtain ⟨entry, hentry, hrefused⟩ := Circuit.insert_recursive (by rw [hi, he])
    exact ⟨entry.typeName, List.mem_map_of_mem hentry, loop_of_ofTemplate hrefused⟩
  · have hfails := resolve_fails (.circuit face c')
    dsimp only
    rcases hr : (Gate.circuit face c').resolve with ⟨g, e | ⟨⟩⟩
    · rw [hr] at hfails
      exact .error fun chain he => absurd he ((hfails e rfl).notRecursive chain)
    · refine .ok _ fun name hname => ?_
      obtain ⟨entry, hentry, rfl⟩ := List.mem_map.mp hname
      obtain ⟨g, hg⟩ := Circuit.insert_made hi entry hentry
      exact acyclic_of_ofTemplateWithin hg

/-- Expansion always ends, with the stack of names as it was, and refuses exactly the cycles. -/
theorem expansion_ends_and_refuses_cycles (registry : Registry) :
    (∀ names typeName extra,
      (expand registry ((registry.unexpanded names).length + 1 + extra) typeName).run names =
        some (ofTemplateWithin registry names typeName, names)) ∧
    (∀ names (c : Circuit Gate) d offset extra,
      (c.insertOn (expand registry ((registry.unexpanded names).length + 1 + extra)) d offset).run
        names = some (c.insert (ofTemplateWithin registry names) d offset, names)) ∧
    (∀ typeName, registry.Judges [typeName] (ofTemplate registry typeName)) ∧
    ∀ c : Circuit Gate, c.registry = registry →
      (∀ typeName, registry.Judges [typeName] (c.create typeName).2) ∧
      ∀ face d offset, registry.Judges (d.gates.map (·.typeName))
        ((Gate.circuit face c).insert d offset).2 := by
  refine ⟨fun names typeName extra => expand_eq registry (by omega) typeName,
    fun names c d offset extra => Circuit.insertOn_eq (expand_eq registry (by omega)) d offset c,
    judges_ofTemplate registry, ?_⟩
  rintro c rfl
  exact ⟨judges_create c, fun face d offset => judges_insert face c d offset⟩

/-- Two circuits with a gate of the other one in each, and one around an inverter. -/
def mirrors : Registry :=
  let around (name : String) : Template := .ofCircuit ⟨default, default⟩ ⟨[⟨"it", name, none⟩], []⟩
  ⟨[("left", around "right"), ("right", around "left"), ("still", around "not"),
    ("not", .ofTransform ⟨.bit none, .bit none⟩ "not")], []⟩

theorem mirrors_are_refused :
    ofTemplate mirrors "left" = .error (.recursiveTemplate ["left", "right", "left"]) ∧
      mirrors.Cyclic "left" ∧ (∃ g, ofTemplate mirrors "still" = .ok g) ∧
      ¬ mirrors.Cyclic "still" := by
  obtain ⟨hexpand, -, hjudges, -⟩ := expansion_ends_and_refuses_cycles mirrors
  have hleft : ofTemplate mirrors "left" =
      .error (.recursiveTemplate ["left", "right", "left"]) :=
    congrArg Prod.fst (Option.some.inj ((hexpand [] "left" 0).symm.trans rfl))
  have hstill : ∃ g, ofTemplate mirrors "still" = .ok g :=
    ⟨_, congrArg Prod.fst (Option.some.inj ((hexpand [] "still" 0).symm.trans rfl))⟩
  obtain ⟨name, hname, -, hcyclic⟩ := (hjudges "left").refused _ hleft
  obtain ⟨g, hg⟩ := hstill
  rw [List.mem_singleton] at hname
  exact ⟨hleft, hname ▸ hcyclic, ⟨g, hg⟩,
    (hjudges "still").acyclic g hg "still" (List.mem_singleton_self _)⟩

end Gate
end TickCircuit
