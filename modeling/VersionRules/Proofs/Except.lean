/-!
# Computations that can fail

What it takes for a computation to succeed, step by step. Results are written as equations with
`ok`, so that a success can be taken apart and put together again.

## Main results

* `bind_eq_ok_iff`, `map_eq_ok_iff` — two computations one after the other
* `bind_eq_error_iff`, `map_eq_error_iff` — and which of the two fails
* `map_bind_congr` — computations with the same errors, and with results that agree in part
* `mapM_cons_eq_ok_iff`, `mapM_map_eq_ok`, `exists_of_mapM_eq_ok` — one computation for each member
  of a list
* `foldlM_preserves` — what every step of a run preserves
* `okUnless` — a computation that fails with the first of several errors, if there are any
* `bind_okUnless`, `mapM_okUnless`, `foldlM_okUnless` — such computations one after the other
-/

namespace VersionRules

variable {ε α β : Type}

instance decidableEqExcept [DecidableEq ε] [DecidableEq α] : DecidableEq (Except ε α)
  | .error e, .error e' => decidable_of_iff (e = e') (by rw [Except.error.injEq])
  | .ok a, .ok b => decidable_of_iff (a = b) (by rw [Except.ok.injEq])
  | .error _, .ok _ => .isFalse nofun
  | .ok _, .error _ => .isFalse nofun

/-- What holds of a result is decided by running the computation. -/
instance decidableForallOk (x : Except ε α) (p : α → Prop) [DecidablePred p] :
    Decidable (∀ a, x = .ok a → p a) :=
  match x with
  | .error _ => .isTrue nofun
  | .ok a => decidable_of_iff (p a) ⟨fun h _ hb => Except.ok.inj hb ▸ h, fun h => h a rfl⟩

theorem bind_eq_ok_iff {x : Except ε α} {f : α → Except ε β} {b : β} :
    x >>= f = .ok b ↔ ∃ a, x = .ok a ∧ f a = .ok b := by
  cases x with
  | error e => simp [bind, Except.bind]
  | ok a => simp [bind, Except.bind]

theorem bind_eq_error_iff {x : Except ε α} {f : α → Except ε β} {e : ε} :
    x >>= f = .error e ↔ x = .error e ∨ ∃ a, x = .ok a ∧ f a = .error e := by
  cases x with
  | error e' => simp [bind, Except.bind]
  | ok a => simp [bind, Except.bind]

theorem map_eq_ok_iff {x : Except ε α} {f : α → β} {b : β} :
    (do return f (← x)) = Except.ok b ↔ ∃ a, x = .ok a ∧ f a = b := by
  rw [bind_eq_ok_iff]
  simp only [pure, Except.pure, Except.ok.injEq]

theorem map_eq_error_iff {x : Except ε α} {f : α → β} {e : ε} :
    (do return f (← x)) = Except.error e ↔ x = .error e := by
  rw [bind_eq_error_iff]
  exact or_iff_left nofun

theorem mapError_eq_ok_iff {δ : Type} {x : Except ε α} {f : ε → δ} {a : α} :
    x.mapError f = .ok a ↔ x = .ok a := by
  cases x with
  | error e => exact ⟨nofun, nofun⟩
  | ok b =>
    show (Except.ok b : Except δ α) = .ok a ↔ _
    rw [Except.ok.injEq, Except.ok.injEq]

theorem mapError_eq_error_iff {δ : Type} {x : Except ε α} {f : ε → δ} {d : δ} :
    x.mapError f = .error d ↔ ∃ e, x = .error e ∧ f e = d := by
  cases x with
  | error e =>
    show (Except.error (f e) : Except δ α) = .error d ↔ _
    simp
  | ok b => exact iff_of_false nofun nofun

/-- Two computations whose results agree up to a function can go on in different ways and still
agree in the end, if no more than this is needed of the results. -/
theorem map_bind_congr {γ δ : Type} {x y : Except ε α} {k l : α → Except ε β} {f : α → γ}
    {g : β → δ} (h : x.map f = y.map f) (hkl : ∀ a b, f a = f b → (k a).map g = (l b).map g) :
    (x >>= k).map g = (y >>= l).map g := by
  cases x with
  | error e =>
    cases y with
    | error e' =>
      obtain rfl := Except.error.inj h
      rfl
    | ok b => cases h
  | ok a =>
    cases y with
    | error e => cases h
    | ok b => exact hkl a b (Except.ok.inj h)

theorem map_bind_congr_right {γ : Type} {x : Except ε α} {k l : α → Except ε β} {g : β → γ}
    (hkl : ∀ a, (k a).map g = (l a).map g) : (x >>= k).map g = (x >>= l).map g := by
  refine map_bind_congr (f := id) rfl ?_
  intro a b hab
  obtain rfl : a = b := hab
  exact hkl a

/-- Computations that agree up to what is kept of an error can go on in ways that agree so. -/
theorem mapError_bind_congr {δ : Type} {x y : Except ε α} {k l : α → Except ε β} {f : ε → δ}
    (h : x.mapError f = y.mapError f) (hkl : ∀ a, (k a).mapError f = (l a).mapError f) :
    (x >>= k).mapError f = (y >>= l).mapError f := by
  cases x with
  | error e =>
    cases y with
    | error e' => exact congrArg Except.error (Except.error.inj h)
    | ok b => cases h
  | ok a =>
    cases y with
    | error e => cases h
    | ok b =>
      obtain rfl : a = b := Except.ok.inj h
      exact hkl a

theorem exists_eq_ok_of_isOk {x : Except ε α} (h : x.isOk) : ∃ a, x = .ok a := by
  cases x with
  | error e => cases h
  | ok a => exact ⟨a, rfl⟩

/-! ### Lists -/

theorem mapM_cons_eq_ok_iff {f : α → Except ε β} {x : α} {xs : List α} {ys : List β} :
    (x :: xs).mapM f = .ok ys ↔ ∃ y zs, f x = .ok y ∧ xs.mapM f = .ok zs ∧ ys = y :: zs := by
  simp only [List.mapM_cons, bind_eq_ok_iff, pure, Except.pure, Except.ok.injEq]
  constructor
  · rintro ⟨y, hy, zs, hzs, rfl⟩
    exact ⟨y, zs, hy, hzs, rfl⟩
  · rintro ⟨y, zs, hy, hzs, rfl⟩
    exact ⟨y, hy, zs, hzs, rfl⟩

/-- A computation that undoes a function on each member of a list undoes it on the list. -/
theorem mapM_map_eq_ok {f : α → Except ε β} {g : β → α} {ys : List β}
    (h : ∀ y ∈ ys, f (g y) = .ok y) : (ys.map g).mapM f = .ok ys := by
  induction ys with
  | nil => rfl
  | cons y ys ih =>
    obtain ⟨hy, hys⟩ := List.forall_mem_cons.1 h
    exact mapM_cons_eq_ok_iff.2 ⟨y, ys, hy, ih hys, rfl⟩

theorem exists_of_mapM_eq_ok {f : α → Except ε β} {xs : List α} {ys : List β}
    (h : xs.mapM f = .ok ys) : ∀ y ∈ ys, ∃ x ∈ xs, f x = .ok y := by
  induction xs generalizing ys with
  | nil =>
    obtain rfl := Except.ok.inj h
    simp
  | cons x xs ih =>
    obtain ⟨y, zs, hy, hzs, rfl⟩ := mapM_cons_eq_ok_iff.1 h
    refine List.forall_mem_cons.2 ⟨⟨x, List.mem_cons_self, hy⟩, ?_⟩
    intro z hz
    obtain ⟨x', hx', hfx'⟩ := ih hzs z hz
    exact ⟨x', List.mem_cons_of_mem x hx', hfx'⟩

/-- What every step of a run preserves holds in the end. -/
theorem foldlM_preserves {P : β → Prop} {f : β → α → Except ε β}
    (hstep : ∀ b a b', P b → f b a = .ok b' → P b') {xs : List α} {b b' : β} (hb : P b)
    (h : xs.foldlM f b = .ok b') : P b' := by
  induction xs generalizing b with
  | nil =>
    obtain rfl := Except.ok.inj h
    exact hb
  | cons x xs ih =>
    obtain ⟨c, hc, h⟩ := bind_eq_ok_iff.1 h
    exact ih (hstep b x c hb hc) h

/-! ### The first error -/

/-- A result, unless there are errors; then the first of them. -/
def okUnless (errors : List ε) (a : α) : Except ε α :=
  match errors with
  | [] => .ok a
  | e :: _ => .error e

section OkUnless

variable {es : List ε} {e : ε} {a b : α}

theorem okUnless_eq_ok_iff : okUnless es a = .ok b ↔ es = [] ∧ b = a := by
  cases es with
  | nil => simp [okUnless, eq_comm]
  | cons e es => simp [okUnless]

theorem okUnless_eq_error_iff : okUnless es a = .error e ↔ es.head? = some e := by
  cases es with
  | nil => simp [okUnless]
  | cons e es => simp [okUnless]

theorem map_okUnless (f : α → β) :
    (do return f (← okUnless es a)) = okUnless es (f a) := by
  cases es with
  | nil => rfl
  | cons e es => rfl

/-- The errors of the first computation come before those of the second. -/
theorem bind_okUnless {f : α → Except ε β} {fs : List ε} {b : β} (h : f a = okUnless fs b) :
    okUnless es a >>= f = okUnless (es ++ fs) b := by
  cases es with
  | nil => exact h
  | cons e es => rfl

theorem mapM_okUnless {f : α → Except ε β} {errors : α → List ε} {g : α → β}
    (h : ∀ x, f x = okUnless (errors x) (g x)) (xs : List α) :
    xs.mapM f = okUnless (xs.flatMap errors) (xs.map g) := by
  induction xs with
  | nil => rfl
  | cons x xs ih =>
    rw [List.mapM_cons, h, List.flatMap_cons]
    refine bind_okUnless ?_
    rw [ih]
    exact map_okUnless (g x :: ·)

/-- A run whose steps fail for reasons that do not depend on the steps before, except for what
every step preserves. -/
theorem foldlM_okUnless {P : β → Prop} {f : β → α → Except ε β} {errors : α → List ε}
    {g : β → α → β} (h : ∀ b x, P b → f b x = okUnless (errors x) (g b x))
    (hpreserved : ∀ b x, P b → P (g b x)) (xs : List α) {b : β} (hb : P b) :
    xs.foldlM f b = okUnless (xs.flatMap errors) (xs.foldl g b) := by
  induction xs generalizing b with
  | nil => rfl
  | cons x xs ih =>
    rw [List.foldlM_cons, h b x hb, List.flatMap_cons]
    exact bind_okUnless (ih (hpreserved b x hb))

end OkUnless

end VersionRules
