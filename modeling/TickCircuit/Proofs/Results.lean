/-!
Lists that are gone through element by element (`eq_map_of_cons`), and lists of results, of which
the first error decides. Main statement: when a list of computations succeeds (`mapM_eq_ok`).
-/
namespace TickCircuit

theorem eq_map_of_cons {α β : Type} {f : α → β} (each : List α → List β) (nil : each [] = [])
    (cons : ∀ a as, each (a :: as) = f a :: each as) (as : List α) : each as = as.map f := by
  induction as with
  | nil => exact nil
  | cons a as ih => rw [cons, ih, List.map_cons]

theorem eq_mapM_of_cons {α β ε : Type} {f : α → Except ε β} (each : List α → Except ε (List β))
    (nil : each [] = .ok [])
    (cons : ∀ a as, each (a :: as) = do
      let b ← f a
      let bs ← each as
      return b :: bs) (as : List α) : each as = as.mapM f := by
  induction as with
  | nil => exact nil
  | cons a as ih => rw [cons, ih, List.mapM_cons]

theorem bind_eq_ok {α β ε : Type} {x : Except ε α} {f : α → Except ε β} {b : β} :
    x >>= f = .ok b ↔ ∃ a, x = .ok a ∧ f a = .ok b := by
  cases x with
  | error e => exact ⟨nofun, nofun⟩
  | ok a => exact ⟨fun h => ⟨a, rfl, h⟩, fun ⟨_, ha, h⟩ => Except.ok.inj ha ▸ h⟩

theorem map_eq_ok {α β ε : Type} {f : α → β} {x : Except ε α} {b : β} :
    f <$> x = .ok b ↔ ∃ a, x = .ok a ∧ f a = b := by
  cases x with
  | error e => exact ⟨nofun, nofun⟩
  | ok a => exact ⟨fun h => ⟨a, rfl, Except.ok.inj h⟩, fun ⟨_, ha, h⟩ => Except.ok.inj ha ▸ h ▸ rfl⟩

theorem map_eq_error {α β ε : Type} {f : α → β} {x : Except ε α} {e : ε} :
    f <$> x = .error e ↔ x = .error e := by
  cases x with
  | error e' =>
    exact ⟨fun h => congrArg _ (Except.error.inj h), fun h => congrArg _ (Except.error.inj h)⟩
  | ok a => exact ⟨nofun, nofun⟩

theorem mapError_eq_ok {α ε ε' : Type} {x : Except ε α} {f : ε → ε'} {a : α} :
    x.mapError f = .ok a ↔ x = .ok a := by
  cases x with
  | error e => exact ⟨nofun, nofun⟩
  | ok b => exact ⟨fun h => congrArg _ (Except.ok.inj h), fun h => congrArg _ (Except.ok.inj h)⟩

theorem forM_eq_ok {α ε : Type} {f : α → Except ε Unit} {xs : List α} :
    xs.forM f = .ok () ↔ ∀ x ∈ xs, f x = .ok () := by
  induction xs with
  | nil => exact ⟨fun _ => nofun, fun _ => rfl⟩
  | cons x xs ih =>
    rw [List.forall_mem_cons, ← ih]
    change (f x >>= fun _ => xs.forM f) = _ ↔ _
    rw [bind_eq_ok]
    exact ⟨fun ⟨⟨⟩, hx, hxs⟩ => ⟨hx, hxs⟩, fun ⟨hx, hxs⟩ => ⟨(), hx, hxs⟩⟩

theorem mapM_eq_ok {α β ε : Type} {f : α → Except ε β} {xs : List α} {ys : List β} :
    xs.mapM f = .ok ys ↔ ys.length = xs.length ∧
      ∀ (k : Nat) x, xs[k]? = some x → ∃ y, ys[k]? = some y ∧ f x = .ok y := by
  induction xs generalizing ys with
  | nil =>
    rw [List.mapM_nil]
    constructor
    · intro h
      cases h
      exact ⟨rfl, fun k x hx => nomatch hx⟩
    · intro h
      cases List.eq_nil_of_length_eq_zero h.1
      rfl
  | cons x xs ih =>
    rw [List.mapM_cons]
    constructor
    · intro h
      cases hx : f x with
      | error e => simp [hx, bind, Except.bind] at h
      | ok y =>
        cases hxs : xs.mapM f with
        | error e => simp [hx, hxs, bind, Except.bind] at h
        | ok zs =>
          simp only [hx, hxs, bind, Except.bind, pure, Except.pure, Except.ok.injEq] at h
          subst h
          obtain ⟨hl, hall⟩ := ih.mp hxs
          refine ⟨congrArg Nat.succ hl, fun k x' hk => ?_⟩
          cases k with
          | zero =>
            cases hk
            exact ⟨y, rfl, hx⟩
          | succ k => exact hall k x' hk
    · intro h
      obtain ⟨hl, hall⟩ := h
      obtain ⟨y, hy, hx⟩ := hall 0 x rfl
      cases ys with
      | nil => cases hy
      | cons z zs =>
        cases hy
        have hxs := ih.mpr ⟨Nat.succ.inj hl, fun k => hall (k + 1)⟩
        rw [hx, hxs]
        rfl

theorem mapM_eq_ok_iff_pairs {α β ε : Type} {f : α → Except ε β} {xs : List α} {ys : List β} :
    xs.mapM f = .ok ys ↔ ∃ pairs : List (α × β),
      pairs.map (·.1) = xs ∧ pairs.map (·.2) = ys ∧ ∀ p ∈ pairs, f p.1 = .ok p.2 := by
  constructor
  · intro h
    obtain ⟨hlen, hall⟩ := mapM_eq_ok.mp h
    refine ⟨xs.zip ys, List.map_fst_zip (by omega), List.map_snd_zip (by omega), fun p hp => ?_⟩
    obtain ⟨k, hk⟩ := List.mem_iff_getElem?.mp hp
    obtain ⟨hx, hy⟩ := List.getElem?_zip_eq_some.mp hk
    obtain ⟨y, hy', hf⟩ := hall k p.1 hx
    rw [hy] at hy'
    cases hy'
    exact hf
  · rintro ⟨pairs, rfl, rfl, h⟩
    refine mapM_eq_ok.mpr ⟨by simp, fun k x hx => ?_⟩
    rw [List.getElem?_map] at hx ⊢
    obtain ⟨p, hp, rfl⟩ := Option.map_eq_some_iff.mp hx
    exact ⟨p.2, by rw [hp]; rfl, h p (List.mem_of_getElem? hp)⟩

theorem mapM_image {α β γ δ ε : Type} {f : α → Except ε β} {g : γ → Except ε δ} {r : α → γ}
    {s : β → δ} {xs : List α} {ys : List β} (h : xs.mapM f = .ok ys)
    (himage : ∀ x ∈ xs, ∀ y, f x = .ok y → g (r x) = .ok (s y)) :
    (xs.map r).mapM g = .ok (ys.map s) := by
  obtain ⟨hlength, hall⟩ := mapM_eq_ok.mp h
  refine mapM_eq_ok.mpr ⟨by simpa using hlength, fun k z hz => ?_⟩
  rw [List.getElem?_map] at hz
  obtain ⟨x, hx, rfl⟩ := Option.map_eq_some_iff.mp hz
  obtain ⟨y, hy, hxy⟩ := hall k x hx
  exact ⟨s y, by rw [List.getElem?_map, hy]; rfl, himage x (List.mem_of_getElem? hx) y hxy⟩

theorem mapM_congr {α β ε : Type} {f g : α → Except ε β} {xs : List α}
    (h : ∀ x ∈ xs, f x = g x) : xs.mapM f = xs.mapM g := by
  induction xs with
  | nil => rfl
  | cons x xs ih =>
    rw [List.mapM_cons, List.mapM_cons, h x List.mem_cons_self,
      ih fun x hx => h x (List.mem_cons_of_mem _ hx)]

theorem isOk_of_mapM {α β ε : Type} {f : α → Except ε β} {xs : List α} {ys : List β}
    (h : xs.mapM f = .ok ys) {x : α} (hx : x ∈ xs) : ∃ y, f x = .ok y := by
  obtain ⟨k, hk⟩ := List.mem_iff_getElem?.mp hx
  obtain ⟨y, -, hy⟩ := (mapM_eq_ok.mp h).2 k x hk
  exact ⟨y, hy⟩

theorem mapM_isOk {α β ε : Type} {f : α → Except ε β} {xs : List α}
    (h : ∀ x ∈ xs, ∃ y, f x = .ok y) : ∃ ys, xs.mapM f = .ok ys := by
  induction xs with
  | nil => exact ⟨[], rfl⟩
  | cons x xs ih =>
    obtain ⟨y, hy⟩ := h x List.mem_cons_self
    obtain ⟨ys, hys⟩ := ih fun x' hx' => h x' (List.mem_cons_of_mem _ hx')
    exact ⟨y :: ys, by rw [List.mapM_cons, hy, hys]; rfl⟩

theorem mapM_eq_error {α β ε : Type} {f : α → Except ε β} {xs : List α} {e : ε}
    (h : xs.mapM f = .error e) : ∃ x ∈ xs, f x = .error e := by
  induction xs with
  | nil => cases h
  | cons x xs ih =>
    rw [List.mapM_cons] at h
    cases hx : f x with
    | error e' =>
      simp only [hx, bind, Except.bind] at h
      cases h
      exact ⟨x, List.mem_cons_self, hx⟩
    | ok y =>
      cases hxs : xs.mapM f with
      | error e' =>
        simp only [hx, hxs, bind, Except.bind] at h
        cases h
        obtain ⟨x', hx', he⟩ := ih hxs
        exact ⟨x', List.mem_cons_of_mem _ hx', he⟩
      | ok ys => simp [hx, hxs, bind, Except.bind, pure, Except.pure] at h

theorem mem_of_mapM {α β ε : Type} {f : α → Except ε β} {xs : List α} {ys : List β}
    (h : xs.mapM f = .ok ys) {y : β} (hy : y ∈ ys) : ∃ x ∈ xs, f x = .ok y := by
  obtain ⟨hlen, hall⟩ := mapM_eq_ok.mp h
  obtain ⟨k, hk⟩ := List.mem_iff_getElem?.mp hy
  have hlt : k < xs.length := hlen ▸ (List.getElem?_eq_some_iff.mp hk).1
  obtain ⟨y', hy', hf⟩ := hall k xs[k] (List.getElem?_eq_getElem hlt)
  rw [hk] at hy'
  cases hy'
  exact ⟨xs[k], List.getElem_mem hlt, hf⟩

theorem mapM_bind_mapM_eq_ok {α β γ ε : Type} {f : α → Except ε β} {g : β → Except ε γ}
    {xs : List α} {zs : List γ} :
    xs.mapM f >>= (List.mapM g ·) = .ok zs ↔ xs.mapM (fun x => f x >>= g) = .ok zs := by
  induction xs generalizing zs with
  | nil => rfl
  | cons x xs ih =>
    simp only [List.mapM_cons, bind_eq_ok] at ih ⊢
    constructor
    · rintro ⟨ys, ⟨y, hy, ys', hys, ⟨⟩⟩, h⟩
      rw [List.mapM_cons] at h
      obtain ⟨z, hz, h⟩ := bind_eq_ok.mp h
      obtain ⟨zs', hzs, ⟨⟩⟩ := bind_eq_ok.mp h
      exact ⟨z, ⟨y, hy, hz⟩, zs', ih.mp ⟨ys', hys, hzs⟩, rfl⟩
    · rintro ⟨z, ⟨y, hy, hz⟩, zs', hzs, ⟨⟩⟩
      obtain ⟨ys', hys, hzs⟩ := ih.mpr hzs
      refine ⟨y :: ys', ⟨y, hy, ys', hys, rfl⟩, ?_⟩
      rw [List.mapM_cons, hz, hzs]
      rfl

theorem mapM_bind_mapM_eq_error {α β γ ε : Type} {f : α → Except ε β} {g : β → Except ε γ}
    {xs : List α} {e : ε} (h : xs.mapM f >>= (List.mapM g ·) = .error e) :
    ∃ x ∈ xs, (f x >>= g) = .error e := by
  cases hf : xs.mapM f with
  | error e' =>
    rw [hf] at h
    cases h
    obtain ⟨x, hx, he⟩ := mapM_eq_error hf
    exact ⟨x, hx, by rw [he]; rfl⟩
  | ok ys =>
    rw [hf] at h
    obtain ⟨y, hy, he⟩ := mapM_eq_error (show ys.mapM g = .error e from h)
    obtain ⟨x, hx, hfx⟩ := mem_of_mapM hf hy
    exact ⟨x, hx, by rw [hfx]; exact he⟩

theorem mapM_map_eq_ok {α β ε : Type} {f : α → β} {g : β → Except ε α} {xs : List α}
    (h : ∀ x ∈ xs, g (f x) = .ok x) : (xs.map f).mapM g = .ok xs := by
  refine mapM_eq_ok.mpr ⟨(List.length_map f).symm, fun k y hy => ?_⟩
  rw [List.getElem?_map] at hy
  obtain ⟨x, hx, rfl⟩ := Option.map_eq_some_iff.mp hy
  exact ⟨x, hx, h x (List.mem_of_getElem? hx)⟩

end TickCircuit
