import Buildbox.Host.Call

/-! Taking calls apart: what each step of a call must have answered, and which state it left, when
the whole call answers a value or a code. -/

namespace Buildbox.HostM

variable {α β : Type} {h h' : Host} {e e' : Refusal} {a b : α} {x : HostM α}

section Binds

variable {σ : Type} {s s' : σ} {x : EStateM Refusal σ α} {f : α → EStateM Refusal σ β}

theorem bind_eq_ok {b : β} :
    (x >>= f) s = .ok b s' ↔ ∃ a s₁, x s = .ok a s₁ ∧ f a s₁ = .ok b s' := by
  change EStateM.bind x f s = _ ↔ _
  unfold EStateM.bind
  cases x s with
  | ok a s₁ =>
    refine ⟨fun hf => ⟨a, s₁, rfl, hf⟩, fun ⟨_, _, heq, hf⟩ => ?_⟩
    cases heq
    exact hf
  | error e s₁ => simp

theorem bind_eq_error :
    (x >>= f) s = .error e s' ↔
      x s = .error e s' ∨ ∃ a s₁, x s = .ok a s₁ ∧ f a s₁ = .error e s' := by
  change EStateM.bind x f s = _ ↔ _
  unfold EStateM.bind
  cases x s with
  | ok a s₁ =>
    refine ⟨fun hf => .inr ⟨a, s₁, rfl, hf⟩, fun hf => ?_⟩
    obtain heq | ⟨_, _, heq, hf⟩ := hf
    · cases heq
    · cases heq
      exact hf
  | error e s₁ => simp

end Binds

section Values

theorem map_eq_ok {f : α → β} {b : β} :
    (f <$> x) h = .ok b h' ↔ ∃ a, x h = .ok a h' ∧ f a = b := by
  change EStateM.map f x h = _ ↔ _
  unfold EStateM.map
  cases x h with
  | ok a h₁ =>
    refine ⟨fun hf => ?_, fun ⟨_, heq, hf⟩ => ?_⟩
    · cases hf
      exact ⟨a, rfl, rfl⟩
    · cases heq
      exact congrArg (EStateM.Result.ok · h') hf
  | error e h₁ => simp

theorem map_eq_error {f : α → β} : (f <$> x) h = .error e h' ↔ x h = .error e h' := by
  change EStateM.map f x h = _ ↔ _
  unfold EStateM.map
  cases x h <;> simp

theorem pure_eq_ok : (pure a : HostM α) h = .ok b h' ↔ a = b ∧ h = h' := by
  change EStateM.Result.ok a h = _ ↔ _
  rw [EStateM.Result.ok.injEq]

theorem throw_eq_ok : (throw e : HostM α) h = .ok a h' ↔ False := by
  change EStateM.Result.error e h = _ ↔ _
  simp

theorem read_eq_ok {f : Host → Except Errno α} :
    read f h = .ok a h' ↔ f h = .ok a ∧ h = h' := by
  unfold read
  cases f h <;> simp

theorem read_eq_error {f : Host → Except Errno α} :
    read f h = .error e h' ↔ ∃ code, f h = .error code ∧ .errno code = e ∧ h = h' := by
  unfold read
  cases f h <;> simp

theorem get_eq_ok {g : Host} : (get : HostM Host) h = .ok g h' ↔ h = g ∧ h = h' := by
  change EStateM.Result.ok h h = _ ↔ _
  rw [EStateM.Result.ok.injEq]

theorem set_eq_ok {g : Host} {u : Unit} : (set g : HostM Unit) h = .ok u h' ↔ g = h' := by
  change EStateM.Result.ok () g = _ ↔ _
  simp

theorem modify_eq_ok {f : Host → Host} {u : Unit} :
    (modify f : HostM Unit) h = .ok u h' ↔ f h = h' := by
  change EStateM.Result.ok () (f h) = _ ↔ _
  simp

theorem modifyGet_eq_ok {f : Host → α × Host} :
    (modifyGet f : HostM α) h = .ok a h' ↔ f h = (a, h') := by
  change EStateM.Result.ok (f h).1 (f h).2 = _ ↔ _
  rw [EStateM.Result.ok.injEq, Prod.ext_iff]

theorem unless_eq_ok {c : Prop} [Decidable c] {k : Unit → HostM α} :
    (if c then throw e >>= k else x) h = .ok a h' ↔ ¬ c ∧ x h = .ok a h' := by
  split
  · next hc => simp only [bind_eq_ok, throw_eq_ok, hc]; simp
  · next hc => simp [hc]

end Values

def Atomic (x : HostM α) : Prop :=
  ∀ ⦃h e h'⦄, x h = .error e h' → h' = h

/-- A call that answers a value or a code. -/
def Coded (x : HostM α) : Prop :=
  ∀ ⦃h h'⦄, x h ≠ .error .overlong h'

def Sure (x : HostM α) : Prop :=
  ∀ ⦃h e h'⦄, x h ≠ .error e h'

section Codes

theorem Sure.atomic (hx : Sure x) : Atomic x :=
  fun _ _ _ herr => (hx herr).elim

theorem sure_of_ok (hx : ∀ h, ∃ a h', x h = .ok a h') : Sure x := by
  intro h e h' herr
  obtain ⟨a, g, hok⟩ := hx h
  rw [hok] at herr
  cases herr

theorem sure_pure (a : α) : Sure (pure a) :=
  sure_of_ok fun h => ⟨a, h, rfl⟩

theorem sure_get : Sure get :=
  sure_of_ok fun h => ⟨h, h, rfl⟩

theorem sure_set (g : Host) : Sure (set g) :=
  sure_of_ok fun _ => ⟨(), g, rfl⟩

theorem sure_modify (f : Host → Host) : Sure (modify f) :=
  sure_of_ok fun h => ⟨(), f h, rfl⟩

theorem sure_modifyGet (f : Host → α × Host) : Sure (modifyGet f) :=
  sure_of_ok fun h => ⟨(f h).1, (f h).2, rfl⟩

theorem Sure.bind {f : α → HostM β} (hx : Sure x) (hf : ∀ a, Sure (f a)) : Sure (x >>= f) := by
  intro h e h' herr
  obtain hfirst | ⟨a, h₁, -, hrest⟩ := bind_eq_error.mp herr
  · exact hx hfirst
  · exact hf a hrest

theorem atomic_throw (e : Refusal) : Atomic (throw e : HostM α) := by
  intro h e' h' herr
  cases herr
  rfl

theorem atomic_read (f : Host → Except Errno α) : Atomic (read f) :=
  fun _ _ _ herr =>
    let ⟨_, _, _, heq⟩ := read_eq_error.mp herr
    heq.symm

theorem Atomic.bind {f : α → HostM β} (hx : Atomic x) (hf : ∀ a, Sure (f a)) :
    Atomic (x >>= f) := by
  intro h e h' herr
  obtain hfirst | ⟨a, h₁, -, hrest⟩ := bind_eq_error.mp herr
  · exact hx hfirst
  · exact (hf a hrest).elim

theorem atomic_read_bind {g : Host → Except Errno α} {f : α → HostM β} (hf : ∀ a, Atomic (f a)) :
    Atomic (read g >>= f) := by
  intro h e h' herr
  obtain hread | ⟨a, h₁, hok, hrest⟩ := bind_eq_error.mp herr
  · exact atomic_read g hread
  · obtain ⟨-, rfl⟩ := read_eq_ok.mp hok
    exact hf a hrest

theorem atomic_get_bind {f : Host → HostM β} (hf : ∀ g, Atomic (f g)) :
    Atomic (get >>= f) := by
  intro h e h' herr
  obtain hget | ⟨a, h₁, hok, hrest⟩ := bind_eq_error.mp herr
  · cases hget
  · obtain ⟨-, rfl⟩ := get_eq_ok.mp hok
    exact hf a hrest

theorem atomic_map {f : α → β} (hx : Atomic x) : Atomic (f <$> x) :=
  fun _ _ _ herr => hx (map_eq_error.mp herr)

theorem atomic_throw_bind (e : Refusal) (f : α → HostM β) : Atomic (throw e >>= f) := by
  intro h e' h' herr
  obtain hthrow | ⟨a, h₁, hok, -⟩ := bind_eq_error.mp herr
  · exact atomic_throw e hthrow
  · exact (throw_eq_ok.mp hok).elim

theorem atomic_pure_bind {f : α → HostM β} (hf : Atomic (f a)) : Atomic (pure a >>= f) :=
  fun _ _ _ herr => hf herr

theorem atomic_unless {c : Prop} [Decidable c] {k : Unit → HostM α} (hx : ¬ c → Atomic x) :
    Atomic (if c then throw e >>= k else x) := by
  split
  · exact atomic_throw_bind e k
  · next hc => exact hx hc

theorem Sure.coded (hx : Sure x) : Coded x :=
  fun _ _ herr => hx herr

theorem coded_throw (e : Errno) : Coded (throw (.errno e) : HostM α) := by
  intro h h' herr
  cases herr

theorem coded_read (f : Host → Except Errno α) : Coded (read f) := by
  intro h h' herr
  obtain ⟨_, -, hcode, -⟩ := read_eq_error.mp herr
  cases hcode

theorem Coded.bind {f : α → HostM β} (hx : Coded x) (hf : ∀ a, Coded (f a)) : Coded (x >>= f) := by
  intro h h' herr
  obtain hfirst | ⟨a, h₁, -, hrest⟩ := bind_eq_error.mp herr
  · exact hx hfirst
  · exact hf a hrest

theorem coded_map {f : α → β} (hx : Coded x) : Coded (f <$> x) :=
  fun _ _ herr => hx (map_eq_error.mp herr)

theorem coded_throw_bind (e : Errno) (f : α → HostM β) : Coded (throw (.errno e) >>= f) := by
  intro h h' herr
  obtain hthrow | ⟨a, h₁, hok, -⟩ := bind_eq_error.mp herr
  · exact coded_throw e hthrow
  · exact (throw_eq_ok.mp hok).elim

theorem coded_unless {c : Prop} [Decidable c] {code : Errno} {k : Unit → HostM α} (hx : Coded x) :
    Coded (if c then throw (.errno code) >>= k else x) := by
  split
  · exact coded_throw_bind code k
  · exact hx

end Codes

end Buildbox.HostM
