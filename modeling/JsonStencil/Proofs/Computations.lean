/-!
# Computations that may fail

Reading a document, making a schema of it and running a plan end with the
first failure that they meet. What is known of a result is taken apart step
by step: a computation that gave a result has given one at every step. Where
it is also known when there is a result, both facts are stated together, and
they are put together along with the computations.

Main definitions:

* `failure?` — what a computation fails with.
* `Yields` — a computation that gives a result under a condition.
* `EndsAlike` — two computations with related results.

Main results:

* `bind_inv` / `mapM_inv` — the steps of a computation that gave a result.
* `failure?_bind` — of two computations in turn, the first failure counts.
* `Yields.map` / `Yields.cons` — going on with a result.
* `EndsAlike.bind` — going on with related results.
-/

namespace JsonStencil

variable {ε α β : Type}

/-! ## Steps of a computation -/

/-- A computation that goes on after another one has its result to go on
with. -/
theorem bind_inv {x : Except ε α} {f : α → Except ε β} {b : β} (h : (x >>= f) = .ok b) :
    ∃ a, x = .ok a ∧ f a = .ok b := by
  cases x with
  | error e => exact nomatch h
  | ok a => exact ⟨a, rfl, h⟩

/-- So has a result that is worked on. -/
theorem map_inv {x : Except ε α} {f : α → β} {b : β} (h : x.map f = .ok b) :
    ∃ a, x = .ok a ∧ f a = b := by
  cases x with
  | error e => exact nomatch h
  | ok a => exact ⟨a, rfl, Except.ok.inj h⟩

/-- So has a computation whose errors are worked on. -/
theorem mapError_inv {ε' : Type} {x : Except ε α} {f : ε → ε'} {a : α}
    (h : x.mapError f = .ok a) : x = .ok a := by
  cases x with
  | error e => exact nomatch h
  | ok b => exact congrArg Except.ok (Except.ok.inj h)

/-- Going on gives a result exactly from a result to go on with. -/
theorem bind_eq_ok {x : Except ε α} {f : α → Except ε β} {b : β} :
    (x >>= f) = .ok b ↔ ∃ a, x = .ok a ∧ f a = .ok b :=
  ⟨bind_inv, fun ⟨a, hx, hf⟩ => by rw [hx]; exact hf⟩

/-- Working on a result gives one exactly if there was one. -/
theorem map_eq_ok {x : Except ε α} {f : α → β} {b : β} :
    x.map f = .ok b ↔ ∃ a, x = .ok a ∧ f a = b :=
  ⟨map_inv, fun ⟨a, hx, hf⟩ => by rw [hx, ← hf]; rfl⟩

/-- Working on errors gives a result exactly if there was one. -/
theorem mapError_eq_ok {ε' : Type} {x : Except ε α} {f : ε → ε'} {a : α} :
    x.mapError f = .ok a ↔ x = .ok a :=
  ⟨mapError_inv, fun h => by rw [h]; rfl⟩

/-- What is kept of a computation that is asked for its result alone. -/
theorem toOption_inv {x : Except ε α} {a : α} (h : x.toOption = some a) : x = .ok a := by
  cases x with
  | error e => exact nomatch h
  | ok b => exact congrArg Except.ok (Option.some.inj h)

/-- What is asked of a result can be decided by looking at the result. -/
instance decidableForallOk {x : Except ε α} {P : α → Prop} [DecidablePred P] :
    Decidable (∀ a, x = .ok a → P a) :=
  decidable_of_iff (∀ a ∈ x.toOption, P a) (by cases x <;> simp [Except.toOption])

/-- Every item of a result comes from an item of the list. -/
theorem mapM_inv {f : α → Except ε β} {xs : List α} {ys : List β} (h : xs.mapM f = .ok ys) :
    ∀ y ∈ ys, ∃ x ∈ xs, f x = .ok y := by
  -- the results come in the order of the list, the first one from its first item
  induction xs generalizing ys with
  | nil =>
    cases h
    exact nofun
  | cons x rest ih =>
    rw [List.mapM_cons] at h
    obtain ⟨first, hFirst, hMore⟩ := bind_inv h
    obtain ⟨others, hOthers, hEnd⟩ := bind_inv hMore
    cases hEnd
    refine List.forall_mem_cons.mpr ⟨⟨x, List.mem_cons_self .., hFirst⟩, fun y hy => ?_⟩
    obtain ⟨found, hFound, hEq⟩ := ih hOthers y hy
    exact ⟨found, List.mem_cons_of_mem _ hFound, hEq⟩

/-! ## The failure of a computation -/

/-- What a computation fails with, if it does. -/
def failure? : Except ε α → Option ε
  | .ok _ => none
  | .error e => some e

/-- A computation fails with exactly one error. -/
theorem failure?_eq_some {x : Except ε α} {e : ε} : failure? x = some e ↔ x = .error e := by
  cases x with
  | ok a => exact ⟨nofun, nofun⟩
  | error e' => exact ⟨fun h => congrArg Except.error (Option.some.inj h),
      fun h => congrArg some (Except.error.inj h)⟩

/-- Working on a result adds no failure. -/
theorem failure?_map (x : Except ε α) (g : α → β) :
    failure? (x >>= fun a => .ok (g a)) = failure? x := by
  cases x <;> rfl

/-- Of two computations in turn that do not depend on each other, the first
failure counts. -/
theorem failure?_bind {γ : Type} (x : Except ε α) (y : Except ε β) (g : α → β → γ) :
    failure? (x >>= fun a => y >>= fun b => .ok (g a b)) = (failure? x).or (failure? y) := by
  cases x with
  -- the second computation is reached only behind a success of the first
  | ok a => exact failure?_map y (g a)
  | error e => rfl

/-! ## Results under a condition -/

/-- The computation gives the result under the condition, and fails
otherwise. -/
def Yields (x : Except ε α) (condition : Prop) (result : α) : Prop :=
  ∀ a, x = .ok a ↔ condition ∧ result = a

namespace Yields

variable {x : Except ε α} {C D : Prop} {r : α}

/-- Where the condition holds, the result is given at once. -/
theorem ok (h : C) (r : α) : Yields (Except.ok r : Except ε α) C r :=
  fun _ => ⟨fun hOk => ⟨h, Except.ok.inj hOk⟩, fun hResult => congrArg Except.ok hResult.2⟩

/-- Where it does not, failing is as it should be. -/
theorem error (h : ¬ C) (e : ε) (r : α) : Yields (Except.error e : Except ε α) C r :=
  fun _ => ⟨fun hOk => (nomatch hOk), fun hResult => absurd hResult.1 h⟩

/-- The condition may be put in other words. -/
theorem congr (h : Yields x C r) (hC : C ↔ D) : Yields x D r := fun a => by rw [h a, hC]

/-- The result is worked on. -/
theorem map (h : Yields x C r) (g : α → β) : Yields (x >>= fun a => .ok (g a)) C (g r) := by
  intro b
  constructor
  · intro hOk
    obtain ⟨a, hx, hb⟩ := bind_inv hOk
    obtain ⟨hC, rfl⟩ := (h a).mp hx
    exact ⟨hC, Except.ok.inj hb⟩
  · rintro ⟨hC, rfl⟩
    rw [(h r).mpr ⟨hC, rfl⟩]
    rfl

/-- A first item and the others. -/
theorem cons {y : Except ε (List β)} {rs : List β} (h : Yields x C r) (hy : Yields y D rs)
    (g : α → β) : Yields (x >>= fun a => y >>= fun as => .ok (g a :: as)) (C ∧ D) (g r :: rs) := by
  intro bs
  constructor
  · intro hOk
    obtain ⟨a, hx, hMore⟩ := bind_inv hOk
    obtain ⟨others, hOthers, hEnd⟩ := bind_inv hMore
    obtain ⟨hC, rfl⟩ := (h a).mp hx
    obtain ⟨hD, rfl⟩ := (hy others).mp hOthers
    exact ⟨⟨hC, hD⟩, Except.ok.inj hEnd⟩
  · rintro ⟨⟨hC, hD⟩, rfl⟩
    rw [(h r).mpr ⟨hC, rfl⟩, (hy rs).mpr ⟨hD, rfl⟩]
    rfl

end Yields

/-! ## Two computations side by side -/

/-- Two computations that end with related results, or with the same
failure. -/
inductive EndsAlike (R : α → β → Prop) : Except ε α → Except ε β → Prop where
  | ok {a : α} {b : β} (related : R a b) : EndsAlike R (.ok a) (.ok b)
  | error (e : ε) : EndsAlike R (.error e) (.error e)

namespace EndsAlike

variable {γ δ : Type} {R : α → β → Prop} {S : γ → δ → Prop} {x : Except ε α} {y : Except ε β}

/-- They go on alike if they do so from related results. -/
theorem bind (h : EndsAlike R x y) {f : α → Except ε γ} {g : β → Except ε δ}
    (hNext : ∀ a b, R a b → EndsAlike S (f a) (g b)) : EndsAlike S (x >>= f) (y >>= g) := by
  cases h with
  | ok related => exact hNext _ _ related
  | error e => exact .error e

/-- Related results are worked on. -/
theorem map (h : EndsAlike R x y) {f : α → γ} {g : β → δ} (hNext : ∀ a b, R a b → S (f a) (g b)) :
    EndsAlike S (x.map f) (y.map g) := by
  cases h with
  | ok related => exact .ok (hNext _ _ related)
  | error e => exact .error e

/-- Computations with equal results or the same failure are equal. -/
theorem eq {x y : Except ε α} (h : EndsAlike (· = ·) x y) : x = y := by
  cases h with
  | ok related => exact congrArg Except.ok related
  | error e => rfl

end EndsAlike

end JsonStencil
