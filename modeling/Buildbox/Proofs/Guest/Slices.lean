import Buildbox.Proofs.Guest.Scatter

/-! What is written to guest memory is read back, and what lies elsewhere is read as before. -/

namespace Buildbox.GuestMemory

variable {m m' m'' : GuestMemory} {p q : Address} {data bs cs : Bytes} {n : Nat} {as as' : List Nat}

theorem add?_eq_ok {a b : Address} (h : a.add? n = .ok b) :
    b.toNat = a.toNat + n := by
  unfold Address.add? at h
  split at h
  · next hlt =>
    cases h
    rw [UInt32.toNat_add, UInt32.toNat_ofNat_of_lt' (by omega)]
    exact Nat.mod_eq_of_lt hlt
  · cases h

theorem exists_add? {a : Address} (h : a.toNat + n < UInt32.size) :
    ∃ b : Address, a.add? n = .ok b ∧ b.toNat = a.toNat + n := by
  have hok : a.add? n = .ok (a + UInt32.ofNat n) := if_pos h
  exact ⟨_, hok, add?_eq_ok hok⟩

theorem exists_write (h : p.toNat + data.length ≤ m.size) : ∃ m', m.write p data = .ok m' := by
  cases hw : m.write p data with
  | ok m' => exact ⟨m', rfl⟩
  | error e => exact absurd (write_eq_error.mp hw).1 (Nat.not_lt.mpr h)

theorem le_size_of_write (h : m.write p data = .ok m') : p.toNat + data.length ≤ m.size := by
  refine Nat.le_of_not_lt fun hlt => ?_
  rw [write_eq_error.mpr ⟨hlt, rfl⟩] at h
  cases h

theorem slice_write (h : m.write p data = .ok m') : m'.slice p data.length = .ok data := by
  have hin := le_size_of_write h
  have hcontents := contents_write h
  have hp : (m.contents.take p.toNat).length = p.toNat := by
    rw [List.length_take, length_contents]
    omega
  rw [slice_eq (size_write h ▸ hin), hcontents, List.append_assoc, List.drop_left' hp,
    List.take_left]

theorem exists_writeNat {k : Nat} (h : p.toNat + k ≤ m.size) (value : Nat) :
    ∃ m', m.writeNat p k value = .ok m' :=
  exists_write (by rwa [Bytes.length_ofNatLE])

theorem getElem?_contents_write (h : m.write p data = .ok m') {i : Nat}
    (hi : i < p.toNat ∨ p.toNat + data.length ≤ i) : m'.contents[i]? = m.contents[i]? := by
  have hin := le_size_of_write h
  have hp : (m.contents.take p.toNat).length = p.toNat := by
    rw [List.length_take, length_contents]
    omega
  rw [contents_write h, List.append_assoc]
  obtain hbelow | habove := hi
  · rw [List.getElem?_append_left (by omega), List.getElem?_take_of_lt hbelow]
  · rw [List.getElem?_append_right (by omega), List.getElem?_append_right (by omega),
      List.getElem?_drop]
    congr 1
    omega

theorem slice_write_of_apart (h : m.write p data = .ok m')
    (hapart : q.toNat + n ≤ p.toNat ∨ p.toNat + data.length ≤ q.toNat)
    (hq : q.toNat + n ≤ m.size) : m'.slice q n = m.slice q n := by
  rw [slice_eq (size_write h ▸ hq), slice_eq hq]
  congr 1
  refine List.ext_getElem? fun i => ?_
  rw [List.getElem?_take, List.getElem?_take]
  split
  · rw [List.getElem?_drop, List.getElem?_drop]
    exact getElem?_contents_write h (by omega)
  · rfl

theorem le_size_of_readNat {k : Nat} (h : m.readNat p k = .ok n) : p.toNat + k ≤ m.size := by
  refine Nat.le_of_not_lt fun hlt => ?_
  rw [readNat, slice_eq_fault_iff.mpr hlt] at h
  cases h

section Addresses

/-- The bytes at some addresses, taken in their order. -/
def Holds (m : GuestMemory) (addresses : List Nat) (bs : Bytes) : Prop :=
  addresses.map (m.contents[·]?) = bs.map some

/-- The memory differs from another at no address but these. -/
def SameBut (m' m : GuestMemory) (addresses : List Nat) : Prop :=
  ∀ a, a ∉ addresses → m'.contents[a]? = m.contents[a]?

theorem Holds.append (h : m.Holds as bs) (h' : m.Holds as' cs) : m.Holds (as ++ as') (bs ++ cs) := by
  rw [Holds, List.map_append, List.map_append, h, h']

theorem holds_append (hlength : as.length = bs.length) :
    m.Holds (as ++ as') (bs ++ cs) ↔ m.Holds as bs ∧ m.Holds as' cs := by
  refine ⟨fun h => ?_, fun h => h.1.append h.2⟩
  rw [Holds, List.map_append, List.map_append] at h
  exact List.append_inj h (by rw [List.length_map, List.length_map, hlength])

theorem Holds.lt_size (h : m.Holds as bs) {a : Nat} (ha : a ∈ as) : a < m.size := by
  have hmem : m.contents[a]? ∈ bs.map some := h ▸ List.mem_map_of_mem ha
  obtain ⟨b, -, hb⟩ := List.mem_map.mp hmem
  rw [← length_contents]
  exact (List.getElem?_eq_some_iff.mp hb.symm).1

theorem Holds.sameBut (h : m.Holds as bs) (hs : m'.SameBut m as') (hapart : ∀ a ∈ as, a ∉ as') :
    m'.Holds as bs :=
  (List.map_congr_left fun a ha => hs a (hapart a ha)).trans h

theorem SameBut.trans (h : m'.SameBut m as) (h' : m''.SameBut m' as') :
    m''.SameBut m (as ++ as') := by
  intro a ha
  rw [List.mem_append, not_or] at ha
  rw [h' a ha.2, h a ha.1]

theorem SameBut.mono (h : m'.SameBut m as) (hsub : ∀ a ∈ as, a ∈ as') : m'.SameBut m as' :=
  fun a ha => h a fun hmem => ha (hsub a hmem)

theorem sameBut_write (h : m.write p data = .ok m') :
    m'.SameBut m (List.range' p.toNat data.length) := by
  intro a ha
  rw [List.mem_range'_1] at ha
  exact getElem?_contents_write h (by omega)

theorem holds_range' {start : Nat} (h : start + bs.length ≤ m.size) :
    m.Holds (List.range' start bs.length) bs ↔ (m.contents.drop start).take bs.length = bs := by
  have hmap : (List.range' start bs.length).map (m.contents[·]?) =
      ((m.contents.drop start).take bs.length).map some := by
    rw [← length_contents] at h
    apply List.ext_getElem
    · simp only [List.length_map, List.length_range', List.length_take, List.length_drop]
      omega
    · intro k hk _
      rw [List.length_map, List.length_range'] at hk
      simp only [List.getElem_map, List.getElem_range', List.getElem_take, List.getElem_drop,
        Nat.one_mul]
      exact List.getElem?_eq_getElem _
  rw [Holds, hmap]
  exact List.map_inj_right fun _ _ => Option.some.inj

theorem slice_of_holds (hin : p.toNat + bs.length ≤ m.size)
    (h : m.Holds (List.range' p.toNat bs.length) bs) : m.slice p bs.length = .ok bs := by
  rw [slice_eq hin, (holds_range' hin).mp h]

theorem readNat_of_holds {k value : Nat} (hin : p.toNat + k ≤ m.size)
    (h : m.Holds (List.range' p.toNat k) (Bytes.ofNatLE k value)) :
    m.readNat p k = .ok (value % Nat.pow 256 k) := by
  have hlength := Bytes.length_ofNatLE k value
  have hslice := slice_of_holds (by rwa [hlength]) (by rwa [hlength])
  rw [hlength] at hslice
  rw [readNat, hslice]
  simp only [bind, Except.bind, pure, Except.pure, Bytes.toNatLE_ofNatLE]

theorem holds_write (h : m.write p data = .ok m') :
    m'.Holds (List.range' p.toNat data.length) data := by
  have hin : p.toNat + data.length ≤ m'.size := size_write h ▸ le_size_of_write h
  have hslice := slice_write h
  rw [slice_eq hin, Except.ok.injEq] at hslice
  exact (holds_range' hin).mpr hslice

theorem readNat_writeNat {k value : Nat} (h : m.writeNat p k value = .ok m')
    (hvalue : value < Nat.pow 256 k) : m'.readNat p k = .ok value := by
  have hin : p.toNat + (Bytes.ofNatLE k value).length ≤ m'.size :=
    size_write h ▸ le_size_of_write h
  have hholds := holds_write h
  rw [Bytes.length_ofNatLE] at hin hholds
  rw [readNat_of_holds hin hholds, Nat.mod_eq_of_lt hvalue]

theorem Holds.write {start k : Nat} (h : m.Holds (List.range' start k) bs) (hw : m.write p data = .ok m')
    (hapart : start + k ≤ p.toNat ∨ p.toNat + data.length ≤ start) :
    m'.Holds (List.range' start k) bs := by
  refine h.sameBut (sameBut_write hw) fun a ha ha' => ?_
  rw [List.mem_range'_1] at ha ha'
  omega

end Addresses

end Buildbox.GuestMemory
