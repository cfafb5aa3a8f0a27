import TickCircuit.Proofs.Interface.Accepts
/-!
Which sources a sink admits, as a relation of interfaces. Labels do not matter to it, neither those
of the sink nor those of the source (`admits_bare`), and where nothing is `none`, sink and source
may change places (`Full.admits_comm`). Main statement: the laws together (`admits_laws`).
-/
namespace TickCircuit.Interface

theorem bare_bare (i : Interface) : i.bare.bare = i.bare := by
  induction i with
  | bit l | any l | none l => rfl
  | rest l e ih => rw [bare, bare, ih]
  | collection l cs ih =>
    rw [bare, bare, bareAll_eq_map, bareAll_eq_map, List.map_map]
    exact congrArg _ (List.map_congr_left ih)

theorem sameShape_bare (a b : Interface) : a.bare.sameShape b.bare = a.sameShape b := by
  rw [Bool.eq_iff_iff, sameShape_iff, sameShape_iff, bare_bare, bare_bare]

theorem allSameShape_bare (c : Interface) (cs : List Interface) :
    (bareAll cs).all (sameShape · c.bare) = cs.all (sameShape · c) := by
  rw [bareAll_eq_map, List.all_map]
  exact congrArg cs.all (funext fun d => sameShape_bare d c)

theorem admits_any (a : Interface) (l : Option String) : a.admits (.any l) = true := by
  cases a <;> simp [admits]

theorem none_admits (l : Option String) (b : Interface) : (none l).admits b = true := by
  cases b <;> simp [admits]

theorem admitsAll_bare {as : List Interface}
    (h : ∀ a ∈ as, ∀ b : Interface, a.bare.admits b.bare = a.admits b) (bs : List Interface) :
    admitsAll (bareAll as) (bareAll bs) = admitsAll as bs := by
  induction as generalizing bs with
  | nil => cases bs <;> rfl
  | cons a as ih =>
    cases bs with
    | nil => rfl
    | cons b bs =>
      rw [bareAll, bareAll, admitsAll, admitsAll, h a List.mem_cons_self b,
        ih (fun a ha => h a (List.mem_cons_of_mem _ ha)) bs]

theorem admits_bare (a b : Interface) : a.bare.admits b.bare = a.admits b := by
  induction a generalizing b with
  | bit l => cases b <;> simp [bare, admits]
  | any l => simp [bare, admits]
  | none l => rw [bare, none_admits, none_admits]
  | rest l e ih =>
    cases b with
    | bit m | any m | none m => simp [bare, admits]
    | rest m f => rw [bare, bare, admits, admits, ih]
    | collection m cs =>
      cases cs with
      | nil => rfl
      | cons c cs => rw [bare, bare, bareAll, admits, admits, allSameShape_bare, ih]
  | collection l as ih =>
    cases b with
    | bit m | any m | none m => simp [bare, admits]
    | rest m e =>
      cases as with
      | nil => rfl
      | cons a as =>
        rw [bare, bare, bareAll, admits, admits, allSameShape_bare, ih a List.mem_cons_self]
    | collection m bs => rw [bare, bare, admits, admits, admitsAll_bare ih]

theorem admits_of_sameShape {a a' b b' : Interface} (ha : a.sameShape a' = true)
    (hb : b.sameShape b' = true) : a.admits b = a'.admits b' := by
  rw [← admits_bare, sameShape_iff.mp ha, sameShape_iff.mp hb, admits_bare]

theorem admitsAll_comm {as bs : List Interface}
    (h : ∀ a ∈ as, ∀ b ∈ bs, a.admits b = b.admits a) : admitsAll as bs = admitsAll bs as := by
  induction as generalizing bs with
  | nil => cases bs <;> rfl
  | cons a as ih =>
    cases bs with
    | nil => rfl
    | cons b bs =>
      have hrest : ∀ a ∈ as, ∀ b ∈ bs, a.admits b = b.admits a := fun a ha b hb =>
        h a (List.mem_cons_of_mem _ ha) b (List.mem_cons_of_mem _ hb)
      rw [admitsAll, admitsAll, h a List.mem_cons_self b List.mem_cons_self, ih hrest]

/-- The induction crosses from a rest to the first child of a collection, which stands for all of
its children on whichever side it is. -/
theorem Full.admits_comm {a b : Interface} (ha : a.Full) (hb : b.Full) :
    a.admits b = b.admits a := by
  induction ha generalizing b with
  | bit l => cases hb <;> simp [admits]
  | any l => rw [admits_any, admits]
  | @rest l e _ ih =>
    cases hb with
    | bit m | any m => simp [admits]
    | rest m hf => rw [admits, admits, ih hf]
    | @collection m cs hcs =>
      cases cs with
      | nil => rfl
      | cons c cs => rw [admits, admits, ih (hcs c List.mem_cons_self)]
  | @collection l as _ ih =>
    cases hb with
    | bit m | any m => simp [admits]
    | rest m he =>
      cases as with
      | nil => rfl
      | cons a as => rw [admits, admits, ih a List.mem_cons_self he]
    | collection m hbs =>
      rw [admits, admits, admitsAll_comm fun a ha b hb => ih a ha (hbs b hb)]

/-- The laws of admission. Every interface admits itself; where nothing is `none` at any depth, a
sink admits a source exactly if the source would admit the sink; and interfaces of the same shapes
stand in for each other on both sides. -/
theorem admits_laws :
    (∀ a : Interface, a.admits a = true) ∧
    (∀ a b : Interface, a.Full → b.Full → a.admits b = b.admits a) ∧
    ∀ a a' b b' : Interface, a.sameShape a' = true → b.sameShape b' = true →
      a.admits b = a'.admits b' :=
  ⟨admits_self, fun _ _ => Full.admits_comm, fun _ _ _ _ => admits_of_sameShape⟩

def twoRows (first second : Option String) : Interface :=
  .collection Option.none [.rest first (.bit Option.none), .copies 2 (.bit second)]

/-- A row of what is open takes in a pair of one shape, as the pair takes in the row. It refuses a
pair of two shapes, whatever the labels, and would be refused by it. -/
theorem admits_laws_rows :
    rows.admits (.copies 2 rows) = true ∧ (copies 2 rows).admits rows = true ∧
    rows.admits (twoRows (some "a") (some "b")) = false ∧
    (twoRows Option.none Option.none).admits rows = false := by
  have hrows : rows.Full := .rest _ (.rest _ (.any _))
  have hpair : (copies 2 rows).Full := .collection _ fun c hc => List.eq_of_mem_replicate hc ▸ hrows
  have htwo : (twoRows Option.none Option.none).Full := by
    refine .collection _ fun c hc => ?_
    obtain rfl | hc := List.mem_cons.mp hc
    · exact .rest _ (.bit _)
    · cases List.mem_singleton.mp hc
      exact .collection _ fun c hc => List.eq_of_mem_replicate hc ▸ .bit _
  have htaken : rows.admits (.copies 2 rows) = true := rfl
  have hrefused : rows.admits (twoRows Option.none Option.none) = false := rfl
  obtain ⟨-, hswap, hlabels⟩ := admits_laws
  refine ⟨htaken, (hswap _ _ hpair hrows).trans htaken, ?_, (hswap _ _ htwo hrows).trans hrefused⟩
  exact (hlabels rows rows _ (twoRows Option.none Option.none) rfl rfl).trans hrefused

/-- A sink of `none` takes everything, but as a source `none` goes into `none` and `any` alone. -/
example : (none Option.none).admits (.bit Option.none) = true ∧
    (bit Option.none).admits (.none Option.none) = false := by decide

end TickCircuit.Interface
