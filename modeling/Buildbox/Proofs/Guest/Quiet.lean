import Buildbox.Guest.State
import Buildbox.Proofs.Guest.Scatter
import Buildbox.Proofs.Host.Atomic

/-! What the parts of a guest's call do to the host. Reading and writing guest memory leaves it
alone, and so does a lookup; a host call that fails does not change it either. -/

namespace Buildbox

namespace GuestM

open HostM (bind_eq_ok bind_eq_error)

variable {α β : Type} {s s' : GuestState} {a : α} {e : Refusal} {x : GuestM α} {c : HostM α}
  {f : α → GuestM β}

section Values

theorem load_eq_ok {g : GuestMemory → Except Errno α} :
    load g s = .ok a s' ↔ g s.memory = .ok a ∧ s = s' := by
  unfold load
  cases g s.memory <;> simp

theorem load_eq_error {g : GuestMemory → Except Errno α} :
    load g s = .error e s' ↔ ∃ code, g s.memory = .error code ∧ .errno code = e ∧ s = s' := by
  unfold load
  cases g s.memory <;> simp

theorem host_eq_ok :
    host c s = .ok a s' ↔ ∃ h, c s.host = .ok a h ∧ { s with host := h } = s' := by
  unfold host
  cases c s.host <;> simp [and_assoc]

theorem host_eq_error :
    host c s = .error e s' ↔ ∃ h, c s.host = .error e h ∧ { s with host := h } = s' := by
  unfold host
  cases c s.host <;> simp [and_assoc]

theorem store_eq_ok {g : GuestMemory → Except Errno GuestMemory} {u : Unit} :
    store g s = .ok u s' ↔ ∃ m, g s.memory = .ok m ∧ { s with memory := m } = s' := by
  unfold store
  cases g s.memory <;> simp

theorem put_eq_ok {p : Address} {k value : Nat} {u : Unit} :
    put p k value s = .ok u s' ↔
      ∃ m, s.memory.writeNat p k value = .ok m ∧ { s with memory := m } = s' :=
  store_eq_ok

theorem putBytes_eq_ok {p : Address} {data : Bytes} {u : Unit} :
    putBytes p data s = .ok u s' ↔
      ∃ m, s.memory.write p data = .ok m ∧ { s with memory := m } = s' :=
  store_eq_ok

theorem store_eq_error {g : GuestMemory → Except Errno GuestMemory} :
    store g s = .error e s' ↔ ∃ code, g s.memory = .error code ∧ .errno code = e ∧ s = s' := by
  unfold store
  cases g s.memory <;> simp

theorem put_eq_error {p : Address} {k value : Nat} :
    put p k value s = .error e s' ↔
      s.memory.size < p.toNat + k ∧ e = .errno .fault ∧ s = s' := by
  simp only [put, store_eq_error, GuestMemory.writeNat, GuestMemory.write_eq_error,
    Bytes.length_ofNatLE]
  refine ⟨fun ⟨_, ⟨hsize, hcode⟩, he, hs⟩ => ⟨hsize, hcode ▸ he.symm, hs⟩,
    fun ⟨hsize, he, hs⟩ => ⟨_, ⟨hsize, rfl⟩, he.symm, hs⟩⟩

end Values

/-- A part of a call that leaves the host alone, whether it fails or not. -/
structure Quiet (x : GuestM α) : Prop where
  ok : ∀ ⦃s a s'⦄, x s = .ok a s' → s'.host = s.host
  error : ∀ ⦃s e s'⦄, x s = .error e s' → s'.host = s.host

def Settled (x : GuestM α) : Prop :=
  ∀ ⦃s e s'⦄, x s = .error e s' → s'.host = s.host

section Parts

theorem Quiet.settled (hx : Quiet x) : Settled x :=
  hx.error

theorem quiet_pure (a : α) : Quiet (pure a) where
  ok s b s' hok := by
    cases hok
    rfl
  error s e s' herr := by cases herr

theorem quiet_throw (e : Refusal) : Quiet (throw e : GuestM α) where
  ok s a s' hok := by cases hok
  error s e' s' herr := by
    cases herr
    rfl

theorem quiet_get : Quiet get where
  ok s t s' hok := by
    cases hok
    rfl
  error s e s' herr := by cases herr

theorem quiet_load (g : GuestMemory → Except Errno α) : Quiet (load g) where
  ok _ _ _ hok := (load_eq_ok.mp hok).2 ▸ rfl
  error _ _ _ herr := by
    obtain ⟨-, -, -, rfl⟩ := load_eq_error.mp herr
    rfl

theorem quiet_store (g : GuestMemory → Except Errno GuestMemory) : Quiet (store g) where
  ok s a s' hok := by
    unfold store at hok
    split at hok
    · cases hok
      rfl
    · cases hok
  error _ _ _ herr := by
    obtain ⟨-, -, -, rfl⟩ := store_eq_error.mp herr
    rfl

theorem quiet_lookup (g : Host → Except Errno α) : Quiet (lookup g) := by
  constructor
  · intro s a s' hok
    obtain ⟨h, hread, rfl⟩ := host_eq_ok.mp hok
    exact (HostM.read_eq_ok.mp hread).2.symm
  · intro s e s' herr
    obtain ⟨h, hread, rfl⟩ := host_eq_error.mp herr
    exact HostM.atomic_read g hread

theorem quiet_scatter (array : Address) (count : UInt32) (data : Bytes) :
    Quiet (scatter array count data) := by
  constructor
  · intro s a s' hok
    unfold scatter at hok
    split at hok
    · cases hok
      rfl
    · cases hok
  · intro s e s' herr
    unfold scatter at herr
    split at herr
    · cases herr
    · cases herr
      rfl

theorem settled_host (hc : HostM.Atomic c) : Settled (host c) := by
  intro s e s' herr
  obtain ⟨h, hfail, rfl⟩ := host_eq_error.mp herr
  exact hc hfail

theorem Quiet.bind_settled (hx : Quiet x) (hf : ∀ a, Settled (f a)) : Settled (x >>= f) := by
  intro s e s' herr
  obtain hfirst | ⟨a, s₁, hok, hrest⟩ := bind_eq_error.mp herr
  · exact hx.error hfirst
  · exact (hf a hrest).trans (hx.ok hok)

theorem Quiet.bind (hx : Quiet x) (hf : ∀ a, Quiet (f a)) : Quiet (x >>= f) := by
  refine ⟨fun s a s' hok => ?_, hx.bind_settled fun a => (hf a).settled⟩
  obtain ⟨b, s₁, hfirst, hrest⟩ := bind_eq_ok.mp hok
  exact ((hf b).ok hrest).trans (hx.ok hfirst)

theorem host_bind_eq_error (hc : HostM.Atomic c) (herr : (host c >>= f) s = .error e s') :
    s'.host = s.host ∨
      ∃ a h, c s.host = .ok a h ∧ f a { s with host := h } = .error e s' := by
  obtain hfirst | ⟨a, s₁, hok, hrest⟩ := bind_eq_error.mp herr
  · exact .inl (settled_host hc hfirst)
  · obtain ⟨h, hdone, rfl⟩ := host_eq_ok.mp hok
    exact .inr ⟨a, h, hdone, hrest⟩

end Parts

section Texts

theorem quiet_put (p : Address) (k value : Nat) : Quiet (put p k value) :=
  quiet_store _

theorem quiet_putBytes (p : Address) (data : Bytes) : Quiet (putBytes p data) :=
  quiet_store _

theorem quiet_text (p : Address) (length : UInt32) : Quiet (text p length) :=
  quiet_load _

theorem quiet_putStrings (table : Address) (index : Nat) (cursor : Address) (items : List String) :
    Quiet (putStrings table index cursor items) := by
  induction items generalizing index cursor with
  | nil => exact quiet_pure _
  | cons item rest ih =>
    exact (quiet_load _).bind fun _ => (quiet_put ..).bind fun _ => (quiet_putBytes ..).bind
      fun _ => (quiet_load _).bind fun _ => (quiet_put ..).bind fun _ => ih _ _

theorem quiet_putSizes (count size : Address) (items : List String) :
    Quiet (putSizes count size items) :=
  (quiet_put ..).bind fun _ => quiet_put ..

theorem quiet_putEvents (array : Address) (i : Nat) (events : List PollEvent) :
    Quiet (putEvents array i events) := by
  induction events generalizing i with
  | nil => exact quiet_pure _
  | cons event rest ih =>
    exact (quiet_load _).bind fun _ => (quiet_putBytes ..).bind fun _ => (quiet_put ..).bind
      fun _ => (quiet_put ..).bind fun _ => (quiet_put ..).bind fun _ => ih _

end Texts

end GuestM

end Buildbox
