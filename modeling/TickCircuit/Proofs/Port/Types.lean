import TickCircuit.Proofs.Interface.Merge
import TickCircuit.Proofs.Port.Resolve
/-!
Types of the sub-ports of a port. The interface of a port says that of every sub-port
(`Shaped.childAt`), and the type that the wiring of an `any` port implies comes, at each path, from
one link (`inferred_childAt`).
-/
namespace TickCircuit

theorem Interface.childAt?_isAny {i : Interface} (h : i.isAny) (path : Path) :
    ∃ c, i.childAt? path = some c ∧ c.isAny := by
  induction path generalizing i with
  | nil => exact ⟨i, rfl, h⟩
  | cons k path ih =>
    cases i with
    | any l => exact @ih (.any Option.none) rfl
    | _ => cases h

/-- Bits and `none` are what they are, whatever is wired to them. -/
def Interface.isFinal : Interface → Bool
  | .bit _ | .none _ => true
  | _ => false

theorem Interface.not_isFinal_of_isAny {i : Interface} (h : i.isAny) : ¬ i.isFinal := by
  cases i <;> simp_all [isAny, isFinal]

theorem Interface.childAt?_of_isFinal {i t : Interface} (hi : i.isFinal) {path : Path}
    (ht : i.childAt? path = some t) : path = [] ∧ t = i := by
  cases path with
  | nil =>
    cases ht
    exact ⟨rfl, rfl⟩
  | cons k path => cases i <;> cases hi <;> cases ht

/-- Of the links at a path and on the way to it, the topmost one, and the rest of the path below
the place where it is. Of several links at one place it is the first. -/
def deciding (links : Path → List LinkId) : Path → Option (LinkId × Path)
  | [] => (links []).head?.map (·, [])
  | k :: path =>
    match links [] with
    | id :: _ => some (id, k :: path)
    | [] => deciding (fun below => links (k :: below)) path

theorem deciding_nil (path : Path) : deciding (fun _ => []) path = none := by
  induction path with
  | nil => rfl
  | cons k path ih => exact ih

theorem deciding_eq_none {links : Path → List LinkId} {path : Path} :
    deciding links path = none ↔ ∀ above, above <+: path → links above = [] := by
  induction path generalizing links with
  | nil =>
    rw [deciding, Option.map_eq_none_iff, List.head?_eq_none_iff]
    constructor
    · intro hroot above hle
      rwa [List.prefix_nil.mp hle]
    · intro hall
      exact hall [] (List.prefix_refl [])
  | cons k path ih =>
    rw [deciding]
    split
    next id ids hroot =>
      refine iff_of_false nofun fun hall => ?_
      have hnil := hall [] List.nil_prefix
      rw [hroot] at hnil
      cases hnil
    next hroot =>
      rw [ih]
      constructor
      · intro hbelow above hle
        obtain rfl | ⟨rest, rfl, hrest⟩ := List.prefix_cons_iff.mp hle
        · exact hroot
        · exact hbelow rest hrest
      · intro hall above hle
        exact hall (k :: above) ((List.prefix_cons_inj k).mpr hle)

theorem deciding_here {links : Path → List LinkId} {path : Path} {id : LinkId} {ids : List LinkId}
    (habove : ∀ above, above <+: path → above ≠ path → links above = [])
    (hid : links path = id :: ids) : deciding links path = some (id, []) := by
  induction path generalizing links with
  | nil =>
    rw [deciding, hid]
    rfl
  | cons k path ih =>
    rw [deciding, habove [] List.nil_prefix nofun]
    refine ih (fun above hle hne => ?_) hid
    exact habove (k :: above) ((List.prefix_cons_inj k).mpr hle) fun he => hne (List.cons.inj he).2

theorem deciding_mem {links : Path → List LinkId} {path : Path} {id : LinkId} {rest : Path}
    (h : deciding links path = some (id, rest)) :
    ∃ above, path = above ++ rest ∧ id ∈ links above := by
  induction path generalizing links with
  | nil =>
    obtain ⟨j, hj, he⟩ := Option.map_eq_some_iff.mp h
    cases he
    exact ⟨[], rfl, List.mem_of_head? hj⟩
  | cons k path ih =>
    rw [deciding] at h
    split at h
    next j _ hl =>
      cases h
      exact ⟨[], rfl, by rw [hl]; exact List.mem_cons_self⟩
    next =>
      obtain ⟨above, hp, hid⟩ := ih h
      exact ⟨k :: above, by rw [hp]; rfl, hid⟩

namespace Port

def decider? (p : Port) (path : Path) : Option (LinkId × Path) := deciding p.linksAt path

theorem decider?_of_mem {p : Port} {path : Path} {id : LinkId} (h : id ∈ p.linksAt path) :
    ∃ k rest, p.decider? path = some (k, rest) := by
  cases hd : p.decider? path with
  | none =>
    rw [deciding_eq_none.mp hd path List.prefix_rfl] at h
    cases h
  | some x => exact ⟨x.1, x.2, rfl⟩

theorem Shaped.childAt {d : Direction} {p q : Port} (hp : p.Shaped d) {path : Path}
    (hq : p.sub? path = some q) : p.interface.childAt? path = some q.interface := by
  induction path generalizing p with
  | nil =>
    cases hq
    rfl
  | cons k path ih =>
    obtain ⟨r, hr, hq⟩ := Option.bind_eq_some_iff.mp hq
    rw [Interface.childAt?, hp.fits.child hr]
    exact ih (hp.sub hr) hq

theorem Shaped.childAt_resolved {d : Direction} {p : Port} (hp : p.Shaped d) {spec : PathSpec}
    {leaf : Leaf} (hr : p.resolve spec = .ok leaf) :
    p.interface.childAt? leaf.path = some leaf.interface := by
  obtain ⟨-, hs, hi, q, hq, hqi⟩ := attach_resolved hp hr 0
  rw [← hi, hs.childAt hq, hqi]

theorem inferredAll_eq_mapM (linkType : LinkId → Except Fault Interface) (subs : List Port) :
    inferredAll linkType subs = subs.mapM (inferred linkType) :=
  eq_mapM_of_cons (inferredAll linkType) rfl (fun _ _ => rfl) subs

section
variable {f : LinkId → Except Fault Interface} {p : Port}

theorem inferred_of_isFinal (h : p.interface.isFinal) : p.inferred f = .ok p.interface := by
  obtain ⟨d, i, ls, subs⟩ := p
  cases i <;> cases h <;> rfl

theorem inferred_of_link (h : ¬ p.interface.isFinal) {id : LinkId} {ids : List LinkId}
    (hl : p.links = id :: ids) : p.inferred f = f id := by
  obtain ⟨d, i, ls, subs⟩ := p
  cases hl
  cases i <;> first | rfl | exact absurd rfl h

theorem inferred_of_subs (h : ¬ p.interface.isFinal) (hl : p.links = []) (hs : p.subs ≠ []) :
    p.inferred f = .collection none <$> p.subs.mapM (inferred f) := by
  obtain ⟨d, i, ls, subs⟩ := p
  cases hl
  cases subs with
  | nil => exact absurd rfl hs
  | cons q subs =>
    cases i <;> simp only [inferred, inferredAll_eq_mapM] <;> first | rfl | exact absurd rfl h

theorem inferred_of_bare (h : ¬ p.interface.isFinal) (hl : p.links = []) (hs : p.subs = []) :
    p.inferred f = .ok (.none none) := by
  obtain ⟨d, i, ls, subs⟩ := p
  cases hl
  cases hs
  cases i <;> first | rfl | exact absurd rfl h

theorem collection_inferred_eq_ok {subs : List Port} {i : Interface} :
    (.collection none <$> subs.mapM (inferred f)) = Except.ok i ↔
      ∃ is, i = .collection none is ∧ is.length = subs.length ∧
        ∀ (k : Nat) q, subs[k]? = some q → ∃ j, is[k]? = some j ∧ q.inferred f = .ok j := by
  cases hm : subs.mapM (inferred f) with
  | error e =>
    constructor
    · nofun
    · rintro ⟨is, -, hlength, hall⟩
      rw [mapM_eq_ok.mpr ⟨hlength, hall⟩] at hm
      cases hm
  | ok js =>
    constructor
    · intro h
      cases h
      exact ⟨js, rfl, mapM_eq_ok.mp hm⟩
    · rintro ⟨is, rfl, hlength, hall⟩
      rw [mapM_eq_ok.mpr ⟨hlength, hall⟩] at hm
      cases hm
      rfl

/-- Where the type that is inferred for a port comes from. -/
theorem inferred_cases {i : Interface} (h : p.inferred f = .ok i) :
    p.interface.isFinal ∧ i = p.interface ∨
      (∃ id ids, p.links = id :: ids ∧ f id = .ok i) ∨
      p.links = [] ∧ p.subs = [] ∧ i = .none none ∨
      p.links = [] ∧ p.subs ≠ [] ∧ ∃ is, i = .collection none is ∧ is.length = p.subs.length ∧
        ∀ (k : Nat) q, p.subs[k]? = some q → ∃ j, is[k]? = some j ∧ q.inferred f = .ok j := by
  by_cases hi : p.interface.isFinal
  · rw [inferred_of_isFinal hi] at h
    exact .inl ⟨hi, (Except.ok.inj h).symm⟩
  · cases hl : p.links with
    | cons id ids =>
      rw [inferred_of_link hi hl] at h
      exact .inr (.inl ⟨id, ids, rfl, h⟩)
    | nil =>
      by_cases hs : p.subs = []
      · rw [inferred_of_bare hi hl hs] at h
        exact .inr (.inr (.inl ⟨rfl, hs, (Except.ok.inj h).symm⟩))
      · rw [inferred_of_subs hi hl hs] at h
        exact .inr (.inr (.inr ⟨rfl, hs, collection_inferred_eq_ok.mp h⟩))

end

theorem decider?_of_link {p : Port} {id : LinkId} {ids : List LinkId} (hl : p.links = id :: ids)
    (path : Path) : p.decider? path = some (id, path) := by
  cases path with
  | nil => simp [decider?, deciding, hl]
  | cons k path => simp [decider?, deciding, hl]

theorem decider?_nil_of_unlinked {p : Port} (hl : p.links = []) : p.decider? [] = none := by
  simp [decider?, deciding, hl]

theorem decider?_cons_of_unlinked {p : Port} (hl : p.links = []) (k : Nat) (path : Path) :
    p.decider? (k :: path) = (p.subs[k]?).bind (·.decider? path) := by
  have hbelow : p.decider? (k :: path) = deciding (fun below => p.linksAt (k :: below)) path := by
    rw [decider?, deciding, linksAt_nil, hl]
  simp only [hbelow, linksAt_cons]
  cases p.subs[k]? with
  | none => exact deciding_nil path
  | some q => rfl

/-- Where the link that decides at a path is, what is inferred is its type, unless the port had its
type there for good. -/
theorem Shaped.inferred_decider {f : LinkId → Except Fault Interface} {d : Direction} {p : Port}
    (hp : p.Shaped d) {i : Interface} (h : p.inferred f = .ok i) {path rest : Path} {id : LinkId}
    (hd : p.decider? path = some (id, rest)) :
    (∃ t, f id = .ok t ∧ i.childAt? path = t.childAt? rest) ∨
      ∃ above t, path = above ++ rest ∧ t.isFinal ∧ p.interface.childAt? above = some t ∧
        i.childAt? above = some t := by
  induction path generalizing p i with
  | nil =>
    obtain ⟨hfinal, rfl⟩ | ⟨j, ids, hl, ht⟩ | ⟨hl, -⟩ | ⟨hl, -⟩ := inferred_cases h
    · obtain ⟨j, -, he⟩ := Option.map_eq_some_iff.mp hd
      cases he
      exact .inr ⟨[], p.interface, rfl, hfinal, rfl, rfl⟩
    · rw [decider?_of_link hl] at hd
      cases hd
      exact .inl ⟨i, ht, rfl⟩
    · rw [decider?_nil_of_unlinked hl] at hd
      cases hd
    · rw [decider?_nil_of_unlinked hl] at hd
      cases hd
  | cons k path ih =>
    obtain ⟨hfinal, rfl⟩ | ⟨j, ids, hl, ht⟩ | ⟨hl, hs, -⟩ | ⟨hl, -, is, rfl, -, hall⟩ :=
      inferred_cases h
    · cases hl : p.links with
      | nil =>
        -- there is nothing below a port of such a type
        rw [decider?_cons_of_unlinked hl] at hd
        obtain ⟨q, hq, -⟩ := Option.bind_eq_some_iff.mp hd
        have hchild : p.interface.childAt? [k] = some q.interface := by
          rw [Interface.childAt?, hp.fits.child hq]
          rfl
        cases (Interface.childAt?_of_isFinal hfinal hchild).1
      | cons j ids =>
        rw [decider?_of_link hl] at hd
        cases hd
        exact .inr ⟨[], p.interface, rfl, hfinal, rfl, rfl⟩
    · rw [decider?_of_link hl] at hd
      cases hd
      exact .inl ⟨i, ht, rfl⟩
    · rw [decider?_cons_of_unlinked hl, hs] at hd
      cases hd
    · rw [decider?_cons_of_unlinked hl] at hd
      obtain ⟨q, hq, hd⟩ := Option.bind_eq_some_iff.mp hd
      obtain ⟨c, hc, hi⟩ := hall k q hq
      have hbelow : ∀ below,
          (Interface.collection none is).childAt? (k :: below) = c.childAt? below := by
        intro below
        rw [Interface.childAt?, Interface.child?, hc]
        rfl
      have hold : ∀ below, p.interface.childAt? (k :: below) = q.interface.childAt? below := by
        intro below
        rw [Interface.childAt?, hp.fits.child hq]
        rfl
      obtain ⟨t, ht, hcp⟩ | ⟨above, t, rfl, hfinal, ht, hct⟩ := ih (hp.sub hq) hi hd
      · exact .inl ⟨t, ht, (hbelow path).trans hcp⟩
      · exact .inr ⟨k :: above, t, rfl, hfinal, (hold above).trans ht, (hbelow above).trans hct⟩

theorem inferred_childAt {linkType : LinkId → Except Fault Interface} {d : Direction} {p : Port}
    (hp : p.Shaped d) (hany : p.interface.isAny) {i : Interface}
    (h : p.inferred linkType = .ok i) {path rest : Path} {id : LinkId}
    (hd : p.decider? path = some (id, rest)) :
    ∃ t, linkType id = .ok t ∧ i.childAt? path = t.childAt? rest := by
  obtain ht | ⟨above, t, -, hfinal, ht, -⟩ := hp.inferred_decider h hd
  · exact ht
  · obtain ⟨e, he, hany⟩ := Interface.childAt?_isAny hany above
    rw [he] at ht
    cases ht
    exact absurd hfinal (Interface.not_isFinal_of_isAny hany)

end Port
end TickCircuit
