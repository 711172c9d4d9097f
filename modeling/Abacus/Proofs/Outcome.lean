/-!
# How computations end

A computation in `Except` that is built from others succeeds if and only if all of them do. Proofs
about readers and evaluators peel such computations apart with these two equivalences.

Where a proof is about values and faults alike, it follows the computation with `Ends` instead: a
property of the value and one of the fault, of which one must hold.
-/

namespace Abacus

variable {ε α β : Type}

theorem bind_eq_ok_iff {e : Except ε α} {f : α → Except ε β} {b : β} :
    e >>= f = .ok b ↔ ∃ a, e = .ok a ∧ f a = .ok b := by
  cases e with
  | error fault => exact ⟨nofun, nofun⟩
  | ok a =>
    constructor
    · intro h
      exact ⟨a, rfl, h⟩
    · rintro ⟨_, ⟨⟩, h⟩
      exact h

theorem map_eq_ok_iff {e : Except ε α} {f : α → β} {b : β} :
    f <$> e = .ok b ↔ ∃ a, e = .ok a ∧ f a = b := by
  cases e with
  | error fault => exact ⟨nofun, nofun⟩
  | ok a =>
    constructor
    · rintro ⟨⟩
      exact ⟨a, rfl, rfl⟩
    · rintro ⟨_, ⟨⟩, rfl⟩
      rfl

theorem pure_eq_ok_iff {a b : α} : (pure a : Except ε α) = .ok b ↔ a = b :=
  ⟨fun h => Except.ok.inj h, fun h => h ▸ rfl⟩

@[simp] theorem ok_bind (a : α) (f : α → Except ε β) : (Except.ok a >>= f) = f a := rfl

theorem bind_ok (e : Except ε α) : e >>= .ok = e := bind_pure e

@[simp] theorem error_bind (fault : ε) (f : α → Except ε β) :
    ((.error fault : Except ε α) >>= f) = .error fault := rfl

/-- A computation ends with a value of which `P` holds, or with a fault of which `Q` holds. -/
def Ends (P : α → Prop) (Q : ε → Prop) : Except ε α → Prop
  | .ok a => P a
  | .error fault => Q fault

namespace Ends

variable {P P' : α → Prop} {R : β → Prop} {Q Q' : ε → Prop} {e : Except ε α}

theorem of_ok (h : Ends P Q e) {a : α} (ha : e = .ok a) : P a := by
  subst ha
  exact h

theorem of_error (h : Ends P Q e) {fault : ε} (hfault : e = .error fault) : Q fault := by
  subst hfault
  exact h

theorem of_true (e : Except ε α) : Ends (fun _ => True) (fun _ => True) e := by
  cases e <;> trivial

theorem imp (h : Ends P Q e) (hP : ∀ a, P a → P' a) (hQ : ∀ fault, Q fault → Q' fault) :
    Ends P' Q' e := by
  cases e with
  | ok a => exact hP a h
  | error fault => exact hQ fault h

theorem bind {f : α → Except ε β} (h : Ends P Q e) (hf : ∀ a, P a → Ends R Q (f a)) :
    Ends R Q (e >>= f) := by
  cases e with
  | ok a => exact hf a h
  | error fault => exact h

theorem map {f : α → β} (h : Ends P Q e) (hf : ∀ a, P a → R (f a)) : Ends R Q (f <$> e) := by
  cases e with
  | ok a => exact hf a h
  | error fault => exact h

theorem mapM {f : α → Except ε β} {as : List α} (h : ∀ a ∈ as, Ends R Q (f a)) :
    Ends (fun bs => ∀ b ∈ bs, R b) Q (as.mapM f) := by
  induction as with
  | nil => exact List.forall_mem_nil R
  | cons a as ih =>
    obtain ⟨ha, has⟩ := List.forall_mem_cons.1 h
    rw [List.mapM_cons]
    exact ha.bind fun b hb => (ih has).bind fun bs hbs => List.forall_mem_cons.2 ⟨hb, hbs⟩

/-- A fold keeps what each of its steps keeps. -/
theorem foldlM {step : β → α → Except ε β} {as : List α} {b : β} (hb : R b)
    (hstep : ∀ a ∈ as, ∀ b, R b → Ends R Q (step b a)) : Ends R Q (as.foldlM step b) := by
  induction as generalizing b with
  | nil => exact hb
  | cons a as ih =>
    obtain ⟨ha, has⟩ := List.forall_mem_cons.1 hstep
    rw [List.foldlM_cons]
    exact (ha b hb).bind fun c hc => ih hc has

end Ends

end Abacus
