import TickCircuit.Gate.Template
import TickCircuit.Proofs.Results
/-!
What kinds of faults each operation has. Main statements: wiring and retyping fail with faults of
types and of connectivity only (`connect_fails`, `close_fails`).
-/
namespace TickCircuit

def Fault.OfWiring (e : Fault) : Prop := e.category = .typeMismatch ∨ e.category = .connectivity

/-- Whatever goes wrong is of one kind. -/
def FailsOnly {α : Type} (kind : Fault → Prop) (x : Except Fault α) : Prop :=
  ∀ e, x = .error e → kind e

namespace FailsOnly
variable {α β : Type} {kind : Fault → Prop}

theorem ok (a : α) : FailsOnly kind (.ok a) := fun _ h => by cases h

theorem error {e : Fault} (h : kind e) : FailsOnly kind (.error e : Except Fault α) := by
  intro e' he
  cases he
  exact h

theorem mono {kind' : Fault → Prop} {x : Except Fault α} (hx : FailsOnly kind x)
    (h : ∀ e, kind e → kind' e) : FailsOnly kind' x := fun e he => h e (hx e he)

protected theorem bind {x : Except Fault α} {f : α → Except Fault β} (hx : FailsOnly kind x)
    (hf : ∀ a, FailsOnly kind (f a)) : FailsOnly kind (x >>= f) := by
  cases x with
  | error e => exact error (hx e rfl)
  | ok a => exact hf a

protected theorem map {x : Except Fault α} (hx : FailsOnly kind x) (f : α → β) :
    FailsOnly kind (f <$> x) := by
  cases x with
  | error e => exact error (hx e rfl)
  | ok a => exact ok (f a)

protected theorem elim {o : Option α} {e : Fault} (h : kind e) (f : α → Except Fault β)
    (hf : ∀ a, FailsOnly kind (f a)) : FailsOnly kind (o.elim (.error e) f) := by
  cases o with
  | none => exact error h
  | some a => exact hf a

theorem ofType (x : Except TypeFault α) : FailsOnly Fault.OfWiring (x.mapError Fault.type) := by
  cases x with
  | error e => exact error (.inl rfl)
  | ok a => exact ok a

end FailsOnly

namespace Port
open FailsOnly
open Fault (OfWiring)

theorem follow_fails (whole : PathSpec) (port : Option Port) (interface : Interface)
    (spec : PathSpec) : FailsOnly OfWiring (follow whole port interface spec) := by
  induction spec generalizing port interface with
  | nil => exact ok _
  | cons step spec ih =>
    rw [follow]
    dsimp only
    split
    · exact error (.inr rfl)
    · split
      · exact error (.inr rfl)
      · split
        · exact error (.inr rfl)
        · exact (ih _ _).map _

theorem attach_fails (p : Port) (path : Path) (id : LinkId) :
    FailsOnly OfWiring (p.attach path id).2 := by
  rw [attach]
  split
  · exact error (.inr rfl)
  · exact ok _

theorem checkLeaf_fails (d : Direction) (leaf : Leaf) (data : Interface) :
    FailsOnly OfWiring (checkLeaf d leaf data) := by
  rw [checkLeaf]
  split
  · exact error (.inl rfl)
  · split
    · exact error (.inr rfl)
    · exact ok _

theorem connect_fails (p : Port) (id : LinkId) (spec : PathSpec) (data : Interface) :
    FailsOnly OfWiring (p.connect id spec data).2 := by
  rw [connect]
  have hr : FailsOnly OfWiring (p.resolve spec) := follow_fails spec (some p) p.interface spec
  cases h : p.resolve spec with
  | error e => exact error (hr e h)
  | ok leaf =>
    dsimp only
    have hl := checkLeaf_fails p.direction leaf data
    cases h : checkLeaf p.direction leaf data with
    | error e => exact error (hl e h)
    | ok u => exact (attach_fails p leaf.path id).map _

mutual
theorem checkRetype_fails (target : Interface) (p : Port) :
    FailsOnly OfWiring (checkRetype target p) := by
  obtain ⟨d, i, ls, subs⟩ := p
  rw [checkRetype]
  exact checkRetypeFrom_fails target 0 subs
theorem checkRetypeFrom_fails (target : Interface) (index : Nat) (ps : List Port) :
    FailsOnly OfWiring (checkRetypeFrom target index ps) := by
  cases ps with
  | nil => exact ok _
  | cons p ps =>
    rw [checkRetypeFrom]
    have hps := checkRetypeFrom_fails target (index + 1) ps
    split
    · exact .bind (checkRetype_fails _ p) fun _ => hps
    · split
      · exact error (.inr rfl)
      · exact hps
end

mutual
theorem inferred_fails {linkType : LinkId → Except Fault Interface}
    (h : ∀ id, FailsOnly OfWiring (linkType id)) (p : Port) :
    FailsOnly OfWiring (p.inferred linkType) := by
  obtain ⟨d, i, ls, subs⟩ := p
  unfold inferred
  split
  · exact ok _
  · exact ok _
  · split
    · exact h _
    · split
      · exact ok _
      · exact (inferredAll_fails h subs).map _
theorem inferredAll_fails {linkType : LinkId → Except Fault Interface}
    (h : ∀ id, FailsOnly OfWiring (linkType id)) (ps : List Port) :
    FailsOnly OfWiring (inferredAll linkType ps) := by
  cases ps with
  | nil => exact ok _
  | cons p ps =>
    rw [inferredAll]
    exact .bind (inferred_fails h p) fun _ => .bind (inferredAll_fails h ps) fun _ => ok _
end

end Port

namespace Circuit
open FailsOnly
open Fault (OfWiring)

theorem source_fails (c : Circuit Gate) (n : Node) : FailsOnly OfWiring (c.source n) := by
  cases n with
  | gate id => exact .elim (.inr rfl) _ fun _ => ok _
  | boundary => exact ok _
  | host => exact error (.inr rfl)

theorem sink_fails (c : Circuit Gate) (n : Node) : FailsOnly OfWiring (c.sink n) := by
  cases n with
  | gate id => exact .elim (.inr rfl) _ fun _ => ok _
  | boundary => exact ok _
  | host => exact error (.inr rfl)

theorem bindSink_fails (c : Circuit Gate) (id : LinkId) (data : Interface) (end_ : LinkEnd) :
    FailsOnly OfWiring (c.bindSink id data end_).2 := by
  rw [bindSink]
  have hs := c.sink_fails end_.node
  cases h : c.sink end_.node with
  | error e => exact error (hs e h)
  | ok p => exact Port.connect_fails p id end_.path data

theorem bindSource_fails (c : Circuit Gate) (id : LinkId) (n : Node) (path : Path) :
    FailsOnly OfWiring (c.bindSource id n path).2 := by
  rw [bindSource]
  have hs := c.source_fails n
  cases h : c.source n with
  | error e => exact error (hs e h)
  | ok p => exact Port.attach_fails p path id

theorem checkLiteral_fails (data : Interface) (literal : Option Value) :
    FailsOnly OfWiring (checkLiteral data literal) := by
  cases literal with
  | none => exact ok _
  | some v => exact ofType _

theorem connect_fails (c : Circuit Gate) (start end_ : LinkEnd) (literal : Option Value) :
    FailsOnly OfWiring (c.connect start end_ literal).2 := by
  rw [connect]
  have hr : FailsOnly OfWiring (c.source start.node >>= (·.resolve start.path)) :=
    .bind (c.source_fails start.node) fun p => Port.follow_fails start.path (some p) p.interface _
  cases h : c.source start.node >>= (·.resolve start.path) with
  | error e => exact error (hr e h)
  | ok leaf =>
    dsimp only
    have hv := checkLiteral_fails leaf.interface literal
    cases h : checkLiteral leaf.interface literal with
    | error e => exact error (hv e h)
    | ok u =>
      dsimp only
      generalize { c with links := c.links.reserve } = c₀
      have hsink := c₀.bindSink_fails c.links.nextId leaf.interface end_
      rcases h : c₀.bindSink c.links.nextId leaf.interface end_ with ⟨c', e | path⟩
      · exact error (hsink e (by rw [h]))
      · dsimp only
        have hsource := c'.bindSource_fails c.links.nextId start.node leaf.path
        rcases h : c'.bindSource c.links.nextId start.node leaf.path with ⟨c'', e | u⟩
        · exact error (hsource e (by rw [h]))
        · exact ok _

theorem leafAt_fails (p : Port) (e : Endpoint) : FailsOnly OfWiring (leafAt p e) :=
  .elim (.inr rfl) _ ok

theorem linkType_fails (c : Circuit Gate) (id : LinkId) : FailsOnly OfWiring (c.linkType id) := by
  refine .bind (.elim (.inr rfl) _ ok) fun l => ?_
  refine .bind (c.source_fails _) fun p => .bind (leafAt_fails p _) fun source => ?_
  exact .bind (c.sink_fails _) fun q => .bind (leafAt_fails q _) fun sink => ofType _

theorem boundaryTypes_fails (c : Circuit Gate) : FailsOnly OfWiring c.boundaryTypes := by
  refine .bind (Port.inferred_fails c.linkType_fails c.innerInput) fun _ => ?_
  exact .bind (Port.inferred_fails c.linkType_fails c.innerOutput) fun _ => ok _

end Circuit

namespace Gate
open FailsOnly
open Fault (OfWiring)

theorem checkBoundary_fails (input output : Interface) (face : Face) (c : Circuit Gate) :
    FailsOnly OfWiring (checkBoundary input output face c) := by
  refine .bind (Port.checkRetype_fails _ _) fun _ => ?_
  refine .bind (Port.checkRetype_fails _ _) fun _ => ?_
  exact .bind (Port.checkRetype_fails _ _) fun _ => Port.checkRetype_fails _ _

theorem setBoundary_fails (input output : Interface) (g : Gate) :
    FailsOnly OfWiring (g.setBoundary input output).2 := by
  cases g with
  | function face name t => exact error (.inr rfl)
  | circuit face c =>
    have hcheck := checkBoundary_fails input output face c
    rw [setBoundary]
    cases h : checkBoundary input output face c with
    | error e => exact error (hcheck e h)
    | ok => exact ok ()

theorem circuit?_fails (g : Gate) : FailsOnly OfWiring g.circuit? := by
  cases g with
  | function face name t => exact error (.inr rfl)
  | circuit face c => exact ok c

theorem resolve_fails (g : Gate) : FailsOnly OfWiring g.resolve.2 := by
  have htypes : FailsOnly OfWiring (g.circuit? >>= Circuit.boundaryTypes) :=
    .bind g.circuit?_fails fun c => c.boundaryTypes_fails
  rw [resolve]
  cases h : g.circuit? >>= Circuit.boundaryTypes with
  | error e => exact error (htypes e h)
  | ok types => exact setBoundary_fails _ _ g

theorem finished_fails {r : Gate × Except Fault Unit} (h : FailsOnly OfWiring r.2) :
    FailsOnly OfWiring (finished r) := by
  obtain ⟨g, e | ⟨⟩⟩ := r
  · exact error (h e rfl)
  · exact ok g

theorem close_fails (typeName : String) (io : Io) (c : Circuit Gate) :
    FailsOnly OfWiring (close typeName io c) := by
  refine .bind (finished_fails (resolve_fails _)) fun g => ?_
  refine .bind (ofType _) fun _ => .bind (ofType _) fun _ => ?_
  exact finished_fails (setBoundary_fails _ _ g)

end Gate
end TickCircuit
