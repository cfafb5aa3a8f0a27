import TickCircuit.Port.Retype
import TickCircuit.Port.Wiring
import TickCircuit.Proofs.Induction
import TickCircuit.Proofs.Results
/-!
Where the links of a port are attached. Main statements: a bound link comes last at its path
(`linksAt_attach`), a released one leaves its path alone (`linksAt_detach`), and retyping moves
none (`linksAt_retyped`).
-/
namespace TickCircuit
namespace Port

def linksAt (p : Port) (path : Path) : List LinkId := (p.sub? path).elim [] (·.links)

@[simp] theorem linksAt_nil (p : Port) : p.linksAt [] = p.links := rfl

theorem linksAt_cons (p : Port) (i : Nat) (path : Path) :
    p.linksAt (i :: path) = (p.subs[i]?).elim [] (·.linksAt path) := by
  cases h : p.subs[i]? <;> simp [linksAt, sub?, h]

theorem newAll_eq_map (d : Direction) (cs : List Interface) : newAll d cs = cs.map (new d) :=
  eq_map_of_cons (newAll d) rfl (fun _ _ => rfl) cs

theorem links_new (d : Direction) (i : Interface) : (new d i).links = [] := by
  cases i <;> rfl

theorem subs_new_of_mem {d : Direction} {i : Interface} {q : Port} (h : q ∈ (new d i).subs) :
    ∃ c, q = new d c := by
  cases i with
  | collection l cs =>
    simp only [new, newAll_eq_map, List.mem_map] at h
    obtain ⟨c, -, rfl⟩ := h
    exact ⟨c, rfl⟩
  | _ => simp [new] at h

theorem linksAt_new (d : Direction) (i : Interface) (path : Path) :
    (new d i).linksAt path = [] := by
  induction path generalizing i with
  | nil => exact links_new d i
  | cons k path ih =>
    rw [linksAt_cons]
    cases h : (new d i).subs[k]? with
    | none => rfl
    | some q =>
      obtain ⟨c, rfl⟩ := subs_new_of_mem (List.mem_of_getElem? h)
      exact ih c

theorem mem_linksBelow {id : LinkId} {subs : List Port} :
    id ∈ linksBelow subs ↔ ∃ q ∈ subs, id ∈ q.allLinks := by
  induction subs with
  | nil => simp [linksBelow]
  | cons q subs ih => simp [linksBelow, ih]

theorem mem_allLinks {id : LinkId} {p : Port} : id ∈ p.allLinks ↔ ∃ path, id ∈ p.linksAt path := by
  induction p with
  | mk d i ls subs ih =>
    rw [allLinks, List.mem_append, mem_linksBelow]
    constructor
    · intro hx
      obtain h | ⟨q, hq, h⟩ := hx
      · exact ⟨[], h⟩
      · obtain ⟨path, hp⟩ := (ih q hq).mp h
        obtain ⟨k, hk⟩ := List.getElem?_of_mem hq
        exact ⟨k :: path, by simpa [linksAt_cons, hk] using hp⟩
    · intro hx
      obtain ⟨path, h⟩ := hx
      cases path with
      | nil => exact .inl h
      | cons k path =>
        rw [linksAt_cons] at h
        cases hk : subs[k]? with
        | none => simp [hk] at h
        | some q =>
          have hq := List.mem_of_getElem? hk
          exact .inr ⟨q, hq, (ih q hq).mpr ⟨path, by simpa [hk] using h⟩⟩

theorem allLinks_eq_nil {p : Port} (h : ∀ path, p.linksAt path = []) : p.allLinks = [] := by
  refine List.eq_nil_iff_forall_not_mem.mpr fun id hid => ?_
  obtain ⟨path, hid⟩ := mem_allLinks.mp hid
  rw [h path] at hid
  cases hid

theorem areLinked_eq_any (subs : List Port) : areLinked subs = subs.any isLinked := by
  induction subs with
  | nil => rfl
  | cons q subs ih => simp [areLinked, ih]

theorem isLinked_eq_false {p : Port} : p.isLinked = false ↔ ∀ path, p.linksAt path = [] := by
  induction p with
  | mk d i ls subs ih =>
    simp only [isLinked, areLinked_eq_any, Bool.or_eq_false_iff, List.any_eq_false,
      Bool.not_eq_true]
    constructor
    · intro hx path
      obtain ⟨hl, hs⟩ := hx
      cases path with
      | nil => simpa using hl
      | cons k path =>
        rw [linksAt_cons]
        cases hk : subs[k]? with
        | none => rfl
        | some q => exact (ih q (List.mem_of_getElem? hk)).mp (hs q (List.mem_of_getElem? hk)) path
    · intro h
      refine ⟨by simpa using h [], fun q hq => (ih q hq).mpr fun path => ?_⟩
      obtain ⟨k, hk⟩ := List.getElem?_of_mem hq
      simpa [linksAt_cons, hk] using h (k :: path)

theorem sub?_modifyAt (f : Port → Port) (path : Path) (p : Port) :
    (modifyAt f path p).sub? path = (p.sub? path).map f := by
  induction path generalizing p with
  | nil => rfl
  | cons i path ih => cases hs : p.subs[i]? <;> simp [modifyAt, sub?, hs, ih]

theorem linksAt_modifyAt {f : Port → Port} (hf : ∀ q, (f q).subs = q.subs) (path π : Path)
    (p : Port) : (modifyAt f path p).linksAt π =
      if π = path then (p.sub? path).elim [] fun q => (f q).links else p.linksAt π := by
  induction path generalizing p π with
  | nil =>
    cases π with
    | nil => simp [modifyAt, sub?]
    | cons k π => simp [modifyAt, linksAt_cons, hf]
  | cons i path ih =>
    cases π with
    | nil => simp [modifyAt]
    | cons k π =>
      by_cases hk : i = k
      · subst hk
        cases hs : p.subs[i]? with
        | none => simp [modifyAt, linksAt_cons, sub?, hs]
        | some q => simp [modifyAt, linksAt_cons, sub?, hs, ih]
      · simp [modifyAt, linksAt_cons, hk, Ne.symm hk]

theorem linksAt_detach (p : Port) (path π : Path) (id : LinkId) :
    (p.detach path id).linksAt π =
      if π = path then (p.linksAt path).filter (· ≠ id) else p.linksAt π := by
  rw [detach, linksAt_modifyAt (by intro; rfl)]
  cases h : p.sub? path <;> simp [linksAt, h]

theorem getElem?_fresh {d : Direction} {i : Interface} {start count k : Nat} {q : Port}
    (h : (fresh d i start count).1[k]? = some q) :
    ∃ c, i.child? (start + k) = some c ∧ q = new d c := by
  induction count generalizing start k with
  | zero => simp [fresh] at h
  | succ count ih =>
    unfold fresh at h
    cases hc : i.child? start with
    | none => simp [hc] at h
    | some c =>
      cases k with
      | zero => exact ⟨c, hc, by simpa [hc] using h.symm⟩
      | succ k =>
        have hk : (fresh d i (start + 1) count).1[k]? = some q := by simpa [hc] using h
        obtain ⟨c', hc', hq⟩ := ih hk
        exact ⟨c', by rwa [Nat.add_right_comm] at hc', hq⟩

theorem length_fresh {d : Direction} {i : Interface} {start count : Nat}
    (h : (fresh d i start count).2 = none) : (fresh d i start count).1.length = count := by
  induction count generalizing start with
  | zero => rfl
  | succ count ih =>
    unfold fresh at h ⊢
    cases hc : i.child? start with
    | none => simp [hc] at h
    | some c =>
      have hs : (fresh d i (start + 1) count).2 = none := by simpa [hc] using h
      simp [ih hs]

theorem linksAt_append {p : Port} {more : List Port} (h : ∀ q ∈ more, ∃ d c, q = new d c)
    (path : Path) : ({ p with subs := p.subs ++ more } : Port).linksAt path = p.linksAt path := by
  cases path with
  | nil => rfl
  | cons k path =>
    rw [linksAt_cons, linksAt_cons]
    by_cases hk : k < p.subs.length
    · rw [List.getElem?_append_left hk]
    · have hn : p.subs[k]? = none := List.getElem?_eq_none (by omega)
      rw [List.getElem?_append_right (by omega), hn]
      cases hm : more[k - p.subs.length]? with
      | none => rfl
      | some q =>
        obtain ⟨d, c, rfl⟩ := h q (List.mem_of_getElem? hm)
        exact linksAt_new d c path

theorem linksAt_set {p q : Port} {i : Nat} {subs : List Port} (hi : subs[i]? = some q) {q' : Port}
    (hq : ∀ path, q'.linksAt path = q.linksAt path) (path : Path) :
    ({ p with subs := subs.set i q' } : Port).linksAt path =
      ({ p with subs } : Port).linksAt path := by
  cases path with
  | nil => rfl
  | cons k path =>
    rw [linksAt_cons, linksAt_cons]
    by_cases hk : i = k
    · subst hk
      have hlt : i < subs.length := (List.getElem?_eq_some_iff.mp hi).1
      rw [List.getElem?_set_self hlt, hi]
      exact hq path
    · rw [List.getElem?_set_ne hk]

/-- Growing makes sub-ports without links, also where it fails. -/
theorem linksAt_grow (path π : Path) (p : Port) : (grow path p).1.linksAt π = p.linksAt π := by
  induction path generalizing p π with
  | nil => rfl
  | cons i rest ih =>
    have hnew : ∀ q ∈ (fresh p.direction p.interface p.subs.length (i + 1 - p.subs.length)).1,
        ∃ d c, q = new d c := by
      intro q hq
      obtain ⟨k, hk⟩ := List.getElem?_of_mem hq
      obtain ⟨c, -, rfl⟩ := getElem?_fresh hk
      exact ⟨_, c, rfl⟩
    have happ := linksAt_append (p := p) hnew
    unfold grow
    dsimp only
    split
    · exact happ π
    · exact happ π
    next sub _ hsub => rw [linksAt_set hsub (fun path => ih path _), happ]

theorem sub?_grow {path : Path} {p : Port} (h : (grow path p).2 = none) :
    ((grow path p).1.sub? path).isSome := by
  induction path generalizing p with
  | nil => rfl
  | cons i rest ih =>
    unfold grow at h ⊢
    dsimp only at h ⊢
    split at h
    · cases h
    next hm hs =>
      have hl := length_fresh hm
      rw [List.getElem?_eq_none_iff, List.length_append] at hs
      omega
    next sub hm hs =>
      have hlt := (List.getElem?_eq_some_iff.mp hs).1
      simp only [sub?, List.getElem?_set_self hlt, Option.bind_eq_bind, Option.bind_some]
      exact ih h

theorem attach_eq {p : Port} {path : Path} (h : (grow path p).2 = none) (id : LinkId) :
    p.attach path id =
      ((grow path p).1.modifyAt (fun q => { q with links := q.links ++ [id] }) path, .ok ()) := by
  unfold attach
  split
  next he => simp [he] at h
  next hq => simp [hq]

theorem linksAt_attach {p : Port} {path : Path} (h : (grow path p).2 = none) (id : LinkId)
    (π : Path) :
    (p.attach path id).1.linksAt π = p.linksAt π ++ if π = path then [id] else [] := by
  rw [attach_eq h, linksAt_modifyAt (by intro; rfl)]
  split
  next hπ =>
    obtain ⟨q, hq⟩ := Option.isSome_iff_exists.mp (sub?_grow h)
    have hl := linksAt_grow path path p
    simp only [linksAt, hq, Option.elim_some] at hl
    subst hπ
    simp only [hq, Option.elim_some, hl]
    rfl
  next => rw [linksAt_grow, List.append_nil]

end Port

/-- The number of sub-ports that a port has from the start. -/
def Interface.arity : Interface → Nat
  | .collection _ cs => cs.length
  | _ => 0

namespace Port

theorem retypedEach_eq_map (c : Interface) (subs : List Port) :
    retypedEach c subs = subs.map (retyped c) :=
  eq_map_of_cons (retypedEach c) rfl (fun _ _ => rfl) subs

theorem getElem?_retypedTo (d : Direction) (cs : List Interface) (subs : List Port) (k : Nat) :
    (retypedTo d cs subs)[k]? =
      (cs[k]?).map fun c => (subs[k]?).elim (new d c) (retyped c) := by
  induction subs generalizing cs k with
  | nil => simp [retypedTo, newAll_eq_map]
  | cons q subs ih =>
    cases cs with
    | nil => simp [retypedTo]
    | cons c cs => cases k <;> simp [retypedTo, ih]

/-- What becomes of sub-port `k`: it is retyped, made or dropped as the new interface has it. -/
theorem getElem?_subs_retyped (target : Interface) (p : Port) (k : Nat) :
    (p.retyped target).subs[k]? = (target.child? k).bind fun c =>
      (p.subs[k]?).elim (if k < target.arity then some (new p.direction c) else none)
        (some ∘ retyped c) := by
  obtain ⟨d, i, ls, subs⟩ := p
  cases target with
  | collection l cs =>
    simp only [retyped, getElem?_retypedTo, Interface.child?, Interface.arity]
    by_cases hk : k < cs.length
    · cases hs : subs[k]? <;> simp [hk]
    · simp [List.getElem?_eq_none (Nat.le_of_not_lt hk)]
  | rest l e =>
    cases hs : subs[k]? <;>
      simp [retyped, retypedEach_eq_map, Interface.child?, Interface.arity, hs]
  | any l =>
    cases hs : subs[k]? <;>
      simp [retyped, retypedEach_eq_map, Interface.child?, Interface.arity, hs]
  | bit l => simp [retyped, Interface.child?]
  | none l => simp [retyped, Interface.child?]

theorem checkRetypeFrom_eq_ok {target : Interface} {n : Nat} {subs : List Port} :
    checkRetypeFrom target n subs = .ok () ↔ ∀ k q, subs[k]? = some q →
      (target.child? (n + k)).elim (q.isLinked = false) (checkRetype · q = .ok ()) := by
  induction subs generalizing n with
  | nil => simp [checkRetypeFrom]
  | cons q subs ih =>
    have hcons : (∀ k r, (q :: subs)[k]? = some r →
          (target.child? (n + k)).elim (r.isLinked = false) (checkRetype · r = .ok ())) ↔
        (target.child? n).elim (q.isLinked = false) (checkRetype · q = .ok ()) ∧
          checkRetypeFrom target (n + 1) subs = .ok () := by
      rw [ih]
      constructor
      · intro h
        refine ⟨h 0 q rfl, fun k r hr => ?_⟩
        simpa [Nat.add_right_comm, Nat.add_assoc] using h (k + 1) r hr
      · intro hx k r hr
        obtain ⟨h0, h⟩ := hx
        cases k with
        | zero => cases hr; exact h0
        | succ k => simpa [Nat.add_right_comm, Nat.add_assoc] using h k r hr
    rw [hcons, checkRetypeFrom]
    cases hc : target.child? n with
    | none =>
      cases hq : q.isLinked <;> simp [bind, Except.bind, throw, throwThe, MonadExceptOf.throw]
    | some c => cases hq : checkRetype c q <;> simp [bind, Except.bind, hq]

theorem checkRetype_eq_ok {target : Interface} {p : Port} :
    checkRetype target p = .ok () ↔ ∀ k q, p.subs[k]? = some q →
      (target.child? k).elim (q.isLinked = false) (checkRetype · q = .ok ()) := by
  obtain ⟨d, i, ls, subs⟩ := p
  simp [checkRetype, checkRetypeFrom_eq_ok]

@[simp] theorem links_retyped (target : Interface) (p : Port) :
    (p.retyped target).links = p.links := by
  obtain ⟨d, i, ls, subs⟩ := p
  cases target <;> rfl

@[simp] theorem interface_retyped (target : Interface) (p : Port) :
    (p.retyped target).interface = target := by
  obtain ⟨d, i, ls, subs⟩ := p
  cases target <;> rfl

@[simp] theorem direction_retyped (target : Interface) (p : Port) :
    (p.retyped target).direction = p.direction := by
  obtain ⟨d, i, ls, subs⟩ := p
  cases target <;> rfl

theorem linksAt_retyped {target : Interface} {p : Port} (h : checkRetype target p = .ok ())
    (path : Path) : (p.retyped target).linksAt path = p.linksAt path := by
  induction p generalizing target path with
  | mk d i ls subs ih =>
    cases path with
    | nil => exact links_retyped target _
    | cons k path =>
      rw [linksAt_cons, linksAt_cons, getElem?_subs_retyped]
      have hk := checkRetype_eq_ok.mp h k
      cases hc : target.child? k with
      | none =>
        cases hs : subs[k]? with
        | none => rfl
        | some q =>
          have hq := isLinked_eq_false.mp (by simpa [hc] using hk q hs) path
          simpa using hq.symm
      | some c =>
        cases hs : subs[k]? with
        | none => by_cases hlt : k < target.arity <;> simp [hlt, linksAt_new]
        | some q =>
          simpa using ih q (List.mem_of_getElem? hs) (by simpa [hc] using hk q hs) path

end Port
end TickCircuit
