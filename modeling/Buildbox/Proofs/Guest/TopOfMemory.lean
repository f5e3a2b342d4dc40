import Buildbox.Proofs.Guest.Addresses

/-! Lists of strings at the top of memory. Three numbers of such a list are computed without a check.
Only in a memory of all that can be addressed may one of them be no word, and it is for a string that
ends with the last byte of such a memory; everything else is written where the numbers say. -/

namespace Buildbox

namespace Exact

open GuestMemory GuestM

section Numbers

variable {size table i cursor n : Nat} {t : String} {items : List String}

def StringFits (size table i cursor n : Nat) : Prop :=
  table + 4 * i + 4 ≤ size ∧ cursor + (n + 1) ≤ size

/-- A number that is computed without a check for a string of `n` bytes is no word: its offset in the
table, its length after it was written, or the place for another one after its zero byte was. -/
def StringWraps (size table i cursor n : Nat) : Prop :=
  UInt32.size ≤ 4 * i ∨ table + 4 * i + 4 ≤ size ∧ cursor + n ≤ size ∧
    (UInt32.size ≤ n ∨ cursor + (n + 1) ≤ size ∧ UInt32.size ≤ cursor + (n + 1))

def Room (size table i cursor : Nat) (items : List String) : Prop :=
  items = [] ∨ table + 4 * (i + items.length) ≤ size ∧ cursor + stringsSize items ≤ size

instance : Decidable (Room size table i cursor items) :=
  inferInstanceAs (Decidable (_ ∨ _))

def ListWraps (size table i cursor : Nat) (items : List String) : Prop :=
  ∃ before t after, items = before ++ t :: after ∧ Room size table i cursor before ∧
    StringWraps size table (i + before.length) (cursor + stringsSize before) (Utf8.encode t).length

theorem room_cons :
    Room size table i cursor (t :: items) ↔
      StringFits size table i cursor (Utf8.encode t).length ∧
        Room size table (i + 1) (cursor + ((Utf8.encode t).length + 1)) items := by
  unfold Room StringFits
  rw [or_iff_right (List.cons_ne_nil t items), List.length_cons, stringsSize_cons]
  cases items with
  | nil =>
    have hnone : stringsSize [] = 0 := rfl
    simp only [hnone, List.length_nil, true_or, and_true]
    omega
  | cons u items =>
    rw [or_iff_right (List.cons_ne_nil u items)]
    omega

theorem not_listWraps_nil : ¬ ListWraps size table i cursor [] := by
  rintro ⟨before, t, after, heq, -⟩
  simp at heq

theorem listWraps_cons :
    ListWraps size table i cursor (t :: items) ↔
      StringWraps size table i cursor (Utf8.encode t).length ∨
        StringFits size table i cursor (Utf8.encode t).length ∧
          ListWraps size table (i + 1) (cursor + ((Utf8.encode t).length + 1)) items := by
  constructor
  · rintro ⟨before, u, after, heq, hroom, hwraps⟩
    cases before with
    | nil =>
      cases heq
      exact .inl hwraps
    | cons _ before =>
      cases heq
      obtain ⟨hfits, hroom⟩ := room_cons.mp hroom
      rw [stringsSize_cons, List.length_cons, ← Nat.add_assoc cursor, Nat.add_comm before.length,
        ← Nat.add_assoc i] at hwraps
      exact .inr ⟨hfits, before, u, after, rfl, hroom, hwraps⟩
  · rintro (hwraps | ⟨hfits, before, u, after, rfl, hroom, hwraps⟩)
    · exact ⟨[], t, items, rfl, .inl rfl, hwraps⟩
    · refine ⟨t :: before, u, after, rfl, room_cons.mpr ⟨hfits, hroom⟩, ?_⟩
      rwa [stringsSize_cons, List.length_cons, ← Nat.add_assoc cursor, Nat.add_comm before.length,
        ← Nat.add_assoc i]

theorem ListWraps.size_eq (h : ListWraps size table 0 cursor items) (hm : size ≤ UInt32.size) :
    size = UInt32.size := by
  obtain ⟨before, t, after, -, hroom, hwraps⟩ := h
  rcases hwraps with hoffset | ⟨-, hin, hlong | hend⟩
  · rcases hroom with rfl | ⟨htable, -⟩
    · cases hoffset
    · omega
  · omega
  · omega

end Numbers

section Ends

variable {α β : Type} {x : ExactM α} {f : α → ExactM β} {size : Nat}
  {wraps wraps' fits fits' : Prop} {as : List Nat} {a b' : α} {b : β} {p n : Nat} {data : Bytes}

def Ends (x : ExactM α) (size : Nat) (wraps fits : Prop) (as : List Nat) (a : α) : Prop :=
  ∀ s : GuestState, s.memory.size = size →
    wraps ∧ (∃ s', x s = .error .outOfRange s') ∨
      ¬ wraps ∧ ∃ m, m.size = size ∧ m.SameBut s.memory as ∧
        (fits ∧ x s = .ok a { s with memory := m } ∨
          ¬ fits ∧ x s = .error (.code .fault) { s with memory := m })

theorem Ends.congr (h : Ends x size wraps fits as a) (hwraps : wraps ↔ wraps')
    (hfits : fits ↔ fits') : Ends x size wraps' fits' as a := by
  rwa [← propext hwraps, ← propext hfits]

theorem Ends.bind (hx : Ends x size wraps fits as a)
    (hf : ¬ wraps → fits → Ends (f a) size wraps' fits' as b) :
    Ends (x >>= f) size (wraps ∨ fits ∧ wraps') (fits ∧ fits') as b := by
  intro s hs
  have hbind : (x >>= f) s = EStateM.bind x f s := rfl
  unfold EStateM.bind at hbind
  obtain ⟨hwraps, s', hstop⟩ | ⟨hwraps, m, hsize, hsame, ⟨hfits, hok⟩ | ⟨hfits, hfault⟩⟩ := hx s hs
  · rw [hstop] at hbind
    exact .inl ⟨.inl hwraps, s', hbind⟩
  · rw [hok] at hbind
    rcases hf hwraps hfits { s with memory := m } hsize with
      ⟨hwraps', s', hstop⟩ | ⟨hwraps', m', hsize', hsame', hrest⟩
    · exact .inl ⟨.inr ⟨hfits, hwraps'⟩, s', hbind.trans hstop⟩
    · have hall : m'.SameBut s.memory as := fun q hq => (hsame' q hq).trans (hsame q hq)
      refine .inr ⟨?_, m', hsize', hall, ?_⟩
      · exact not_or.mpr ⟨hwraps, fun h => hwraps' h.2⟩
      · rw [hbind]
        exact hrest.imp (fun h => ⟨⟨hfits, h.1⟩, h.2⟩) fun h => ⟨fun h' => h.1 h'.2, h.2⟩
  · rw [hfault] at hbind
    refine .inr ⟨?_, m, hsize, hsame, .inr ⟨fun h => hfits h.1, hbind⟩⟩
    exact not_or.mpr ⟨hwraps, fun h => hfits h.1⟩

theorem Ends.of_ok {s s' : GuestState} (h : Ends x size wraps fits as a)
    (hs : s.memory.size = size) (hok : x s = .ok b' s') :
    fits ∧ b' = a ∧ s'.memory.size = size := by
  obtain ⟨-, s₁, hstop⟩ | ⟨-, m, hsize, -, ⟨hfits, hdone⟩ | ⟨-, hfault⟩⟩ := h s hs
  · rw [hstop] at hok
    cases hok
  · rw [hdone] at hok
    cases hok
    exact ⟨hfits, rfl, hsize⟩
  · rw [hfault] at hok
    cases hok

theorem ends_pure (a : α) : Ends (pure a) size False True as a :=
  fun s hs => .inr ⟨not_false, s.memory, hs, fun _ _ => rfl, .inl ⟨trivial, rfl⟩⟩

theorem ends_word (n : Nat) : Ends (load fun _ => word n) size (UInt32.size ≤ n) True as n := by
  intro s hs
  by_cases hn : n < UInt32.size
  · have hok : word n = .ok n := if_pos hn
    refine .inr ⟨Nat.not_le.mpr hn, s.memory, hs, fun _ _ => rfl, .inl ⟨trivial, ?_⟩⟩
    simp only [load, hok]
  · have hstop : word n = .error .outOfRange := if_neg hn
    refine .inl ⟨Nat.le_of_not_lt hn, s, ?_⟩
    simp only [load, hstop]

theorem ends_word? (n : Nat) : Ends (load fun _ => word? n) size False (n < UInt32.size) as n := by
  intro s hs
  refine .inr ⟨not_false, s.memory, hs, fun _ _ => rfl, ?_⟩
  by_cases hn : n < UInt32.size
  · have hok : word? n = .ok n := if_pos hn
    refine .inl ⟨hn, ?_⟩
    simp only [load, hok]
  · have hfault : word? n = .error (.code .fault) := if_neg hn
    refine .inr ⟨hn, ?_⟩
    simp only [load, hfault]

theorem ends_putBytes (data : Bytes) (hp : p < UInt32.size)
    (hsub : p + data.length ≤ size → ∀ q ∈ List.range' p data.length, q ∈ as) :
    Ends (putBytes p data) size False (p + data.length ≤ size) as () := by
  intro s hs
  have hat : (UInt32.ofNat p).toNat = p := UInt32.toNat_ofNat_of_lt' hp
  by_cases hin : p + data.length ≤ s.memory.size
  · obtain ⟨m, hw⟩ : ∃ m, s.memory.write (UInt32.ofNat p) data = .ok m :=
      exists_write (by rwa [hat])
    have hsame := sameBut_write hw
    rw [hat] at hsame
    refine .inr ⟨not_false, m, (size_write hw).trans hs, hsame.mono (hsub (hs ▸ hin)),
      .inl ⟨hs ▸ hin, ?_⟩⟩
    rw [putBytes, if_pos hin]
    exact lift_eq_ok.mpr (GuestM.putBytes_eq_ok.mpr ⟨m, hw, rfl⟩)
  · exact .inr ⟨not_false, s.memory, hs, fun _ _ => rfl, .inr ⟨hs ▸ hin, if_neg hin⟩⟩

theorem ends_put (k value : Nat) (hp : p < UInt32.size)
    (hsub : p + k ≤ size → ∀ q ∈ List.range' p k, q ∈ as) :
    Ends (put p k value) size False (p + k ≤ size) as () := by
  have hlength := Bytes.length_ofNatLE k value
  have hput : Ends (putBytes p (Bytes.ofNatLE k value)) size False
      (p + (Bytes.ofNatLE k value).length ≤ size) as () :=
    ends_putBytes _ hp (by rwa [hlength])
  rwa [hlength] at hput

end Ends

section Strings

variable {s : GuestState} {size table cursor i : Nat} {as : List Nat}

theorem ends_putString (t : String) (hm : size ≤ UInt32.size) (hcursor : cursor < UInt32.size)
    (htable : ∀ q ∈ List.range' (table + 4 * i) 4, q ∈ as)
    (hbuffer : ∀ q, cursor ≤ q → q < size → q ∈ as) :
    Ends (putString table i cursor t) size
      (StringWraps size table i cursor (Utf8.encode t).length)
      (StringFits size table i cursor (Utf8.encode t).length) as
      (cursor + (Utf8.encode t).length + 1) := by
  have hwithin {p n : Nat} (hp : cursor ≤ p) (hin : p + n ≤ size) :
      ∀ q ∈ List.range' p n, q ∈ as := fun q hq => by
    rw [List.mem_range'_1] at hq
    exact hbuffer q (by omega) (by omega)
  refine Ends.congr ((ends_word (4 * i)).bind fun _ _ =>
    (ends_word? (table + 4 * i)).bind fun _ hslot =>
    (ends_put 4 cursor hslot fun _ => htable).bind fun _ _ =>
    (ends_putBytes (Utf8.encode t) hcursor (hwithin (Nat.le_refl cursor))).bind fun _ _ =>
    (ends_word (Utf8.encode t).length).bind fun _ _ =>
    (ends_word? (cursor + (Utf8.encode t).length)).bind fun _ hstop =>
    (ends_put 1 0 hstop (hwithin (Nat.le_add_right ..))).bind fun _ _ =>
    ends_word (cursor + (Utf8.encode t).length + 1)) ?_ ?_
  · simp only [StringWraps, false_or, true_and]
    omega
  · simp only [StringFits, true_and, and_true]
    omega

theorem ends_putStrings (items : List String) (hm : size ≤ UInt32.size)
    (hcursor : cursor < UInt32.size)
    (htable : ∀ q ∈ List.range' (table + 4 * i) (4 * items.length), q ∈ as)
    (hbuffer : ∀ q, cursor ≤ q → q < size → q ∈ as) :
    Ends (putStrings table i cursor items) size (ListWraps size table i cursor items)
      (Room size table i cursor items) as () := by
  induction items generalizing i cursor with
  | nil =>
    have hroom : Room size table i cursor [] := .inl rfl
    exact (ends_pure ()).congr (iff_of_false not_false not_listWraps_nil) (iff_of_true trivial hroom)
  | cons t items ih =>
    rw [List.length_cons] at htable
    have hslot : ∀ q ∈ List.range' (table + 4 * i) 4, q ∈ as := fun q hq => by
      rw [List.mem_range'_1] at hq
      exact htable q (List.mem_range'_1.mpr (by omega))
    have hslots : ∀ q ∈ List.range' (table + 4 * (i + 1)) (4 * items.length), q ∈ as :=
      fun q hq => by
        rw [List.mem_range'_1] at hq
        exact htable q (List.mem_range'_1.mpr (by omega))
    refine ((ends_putString t hm hcursor hslot hbuffer).bind fun hwraps hfits => ?_).congr
      listWraps_cons.symm room_cons.symm
    -- A string that ends with the last address of all has been told apart before.
    have hnext : cursor + (Utf8.encode t).length + 1 < UInt32.size := by
      unfold StringWraps at hwraps
      unfold StringFits at hfits
      omega
    exact ih hnext hslots fun q hq => hbuffer q (by omega)

end Strings

section Agreement

variable {s : GuestState} {table cursor : Address} {i : Nat} {t : String} {items : List String}

theorem putString_eq
    (hwraps : ¬ StringWraps s.memory.size table.toNat i cursor.toNat (Utf8.encode t).length) :
    putString table.toNat i cursor.toNat t s =
      lift (UInt32.toNat <$> GuestM.putString table i cursor t) s := by
  unfold StringWraps at hwraps
  have hoffset : 4 * i < UInt32.size := by omega
  simp only [putString, GuestM.putString, map_bind, map_pure]
  rw [load_word_bind hoffset, toNat_slotOffset hoffset]
  refine bind_eq_lift load_address fun slot s₁ hslot => ?_
  obtain ⟨hslotAt, rfl⟩ := GuestM.load_eq_ok.mp hslot
  refine bind_eq_lift_same put_eq fun _ s₂ hword => ?_
  obtain ⟨hsize, htable⟩ := size_put hword
  refine bind_eq_lift_same putBytes_eq fun _ s₃ hbytes => ?_
  obtain ⟨hsize', hbuffer⟩ := size_putBytes hbytes
  rw [add?_eq_ok hslotAt] at htable
  have hlength : (Utf8.encode t).length < UInt32.size := by omega
  rw [load_word_bind hlength, UInt32.toNat_ofNat_of_lt' hlength]
  refine bind_eq_lift load_address fun stop s₄ hstop => ?_
  obtain ⟨hstopAt, rfl⟩ := GuestM.load_eq_ok.mp hstop
  refine bind_eq_lift_same put_eq fun _ s₅ hzero => ?_
  obtain ⟨-, hend⟩ := size_put hzero
  rw [add?_eq_ok hstopAt] at hend
  have hnext : stop.toNat + 1 < UInt32.size := by
    rw [add?_eq_ok hstopAt]
    omega
  have hone : (stop + 1).toNat = stop.toNat + 1 := toNat_field (k := 2) hnext (by decide)
  have hok : word (stop.toNat + 1) = .ok (stop.toNat + 1) := if_pos hnext
  rw [hone]
  simp only [load, hok]
  rfl

theorem putStrings_eq (hm : s.memory.size ≤ UInt32.size)
    (hwraps : ¬ ListWraps s.memory.size table.toNat i cursor.toNat items) :
    putStrings table.toNat i cursor.toNat items s =
      lift (GuestM.putStrings table i cursor items) s := by
  induction items generalizing i cursor s with
  | nil => rfl
  | cons t items ih =>
    rw [listWraps_cons, not_or] at hwraps
    have hone := putString_eq hwraps.1
    rw [GuestM.putStrings_cons]
    refine bind_eq_lift hone fun next s₁ hnext => ?_
    have hends := ends_putString t hm cursor.toNat_lt_size
      (fun _ : Nat => List.mem_append_left (List.range s.memory.size))
      fun q _ hq => List.mem_append_right (List.range' (table.toNat + 4 * i) 4)
        (List.mem_range.mpr hq)
    obtain ⟨hfits, hat, hsize⟩ := hends.of_ok rfl (hone.trans (lift_map_of_ok _ hnext))
    rw [hat]
    refine hat ▸ ih (hsize ▸ hm) ?_
    rw [hsize, hat]
    exact fun hrest => hwraps.2 ⟨hfits, hrest⟩

end Agreement

/-- One of the strings that an import writes comes to a number that is no word. -/
def Wraps : Import → GuestState → Prop
  | .argsGet table buffer, s => ListWraps s.memory.size table.toNat 0 buffer.toNat s.host.args
  | .environGet table buffer, s => ListWraps s.memory.size table.toNat 0 buffer.toNat s.host.env
  | _, _ => False

section Imports

open Import GuestRun

variable {s : GuestState} {i : Import} {items : List String} {table buffer : Address}
  {sizes get : Address → Address → Import}

theorem perform_of_call (hi : perform i = call i >>= fun _ => pure .goOn)
    (hi' : i.perform = i.call >>= fun _ => pure .goOn) (hcall : call i s = lift i.call s) :
    perform i s = lift i.perform s := by
  rw [hi, hi']
  exact bind_eq_lift_same hcall fun _ _ _ => rfl

theorem perform_eq (hm : s.memory.size ≤ UInt32.size) (hwraps : ¬ Wraps i s) :
    perform i s = lift i.perform s := by
  cases i with
  | procExit => rfl
  | pollOneoff => exact pollCall_eq hm
  | argsGet | environGet => exact perform_of_call rfl rfl (putStrings_eq hm hwraps)
  | fdFdstatGet => exact perform_of_call rfl rfl (call_fdFdstatGet_eq hm)
  | fdPrestatGet => exact perform_of_call rfl rfl (call_fdPrestatGet_eq hm)
  | fdPread =>
    exact perform_of_call rfl rfl <| bind_eq_lift_same capacity_eq fun _ _ _ =>
      bind_eq_lift_same rfl fun _ _ _ => bind_eq_lift_same scatter_eq fun _ _ _ => put_eq
  | fdRead =>
    exact perform_of_call rfl rfl <| bind_eq_lift_same capacity_eq fun _ _ _ =>
      bind_eq_lift_same rfl fun _ _ _ => bind_eq_lift_same scatter_eq fun _ _ _ => put_eq
  | fdPwrite =>
    exact perform_of_call rfl rfl <| bind_eq_lift_same gather_eq fun _ _ _ =>
      bind_eq_lift_same rfl fun _ _ _ => put_eq
  | fdWrite =>
    exact perform_of_call rfl rfl <| bind_eq_lift_same gather_eq fun _ _ _ =>
      bind_eq_lift_same rfl fun _ _ _ => put_eq
  | _ => exact perform_of_call rfl rfl rfl

theorem ends_listing (items : List String) (hm : s.memory.size ≤ UInt32.size) :
    Ends (putStrings table.toNat 0 buffer.toNat items >>= fun _ => pure Signal.goOn) s.memory.size
      (ListWraps s.memory.size table.toNat 0 buffer.toNat items)
      (Room s.memory.size table.toNat 0 buffer.toNat items)
      (List.range' table.toNat (4 * items.length) ++
        List.range' buffer.toNat (s.memory.size - buffer.toNat)) .goOn := by
  have hbuffer (q : Nat) (hq : buffer.toNat ≤ q) (hq' : q < s.memory.size) :
      q ∈ List.range' buffer.toNat (s.memory.size - buffer.toNat) :=
    List.mem_range'_1.mpr (by omega)
  refine Ends.congr (Ends.bind (ends_putStrings items hm buffer.toNat_lt_size
    (fun _ => List.mem_append_left _) fun q hq hq' => List.mem_append_right _ (hbuffer q hq hq'))
    fun _ _ => ends_pure Signal.goOn) ?_ ?_
  · rw [and_false, or_false]
  · rw [and_true]

theorem wraps_lists (h : Lists s.host items sizes get) :
    Wraps (get table buffer) s ↔
      ListWraps s.memory.size table.toNat 0 buffer.toNat items := by
  cases h with
  | args | environ => exact Iff.rfl

theorem perform_lists (h : Lists s.host items sizes get) :
    perform (get table buffer) s =
      (putStrings table.toNat 0 buffer.toNat items >>= fun _ => pure Signal.goOn) s := by
  cases h with
  | args | environ => rfl

theorem exists_lists_of_wraps (h : Wraps i s) :
    ∃ items sizes get table buffer, Lists s.host items sizes get ∧ i = get table buffer := by
  cases i with
  | argsGet table buffer => exact ⟨_, _, _, table, buffer, .args, rfl⟩
  | environGet table buffer => exact ⟨_, _, _, table, buffer, .environ, rfl⟩
  | _ => exact h.elim

theorem perform_outOfRange (hm : s.memory.size ≤ UInt32.size) (hwraps : Wraps i s) :
    s.memory.size = UInt32.size ∧ ∃ s', perform i s = .error .outOfRange s' := by
  obtain ⟨items, sizes, get, table, buffer, hlist, rfl⟩ := exists_lists_of_wraps hwraps
  have hwraps := (wraps_lists hlist).mp hwraps
  refine ⟨hwraps.size_eq hm, ?_⟩
  obtain ⟨-, hstop⟩ | ⟨hfree, -⟩ := ends_listing items hm s rfl
  · rwa [perform_lists hlist]
  · exact absurd hwraps hfree

theorem callImport_lists (hm : s.memory.size ≤ UInt32.size) (hlist : Lists s.host items sizes get)
    (hwraps : ¬ Wraps (get table buffer) s) :
    ∃ s', callImport true (get table buffer) s =
        (.ok (if Room s.memory.size table.toNat 0 buffer.toNat items then 0
          else Errno.fault.code), s') ∧
      s'.memory.SameBut s.memory (List.range' table.toNat (4 * items.length) ++
        List.range' buffer.toNat (s.memory.size - buffer.toNat)) := by
  have hperform := (perform_lists hlist).symm.trans (perform_eq hm hwraps)
  obtain ⟨hlistWraps, -⟩ | ⟨-, m, -, hsame, hend⟩ := ends_listing items hm s rfl
  · exact absurd ((wraps_lists hlist).mpr hlistWraps) hwraps
  refine ⟨{ s with memory := m }, ?_, hsame⟩
  rcases hend with ⟨hroom, hok⟩ | ⟨hroom, hfault⟩
  · rw [if_pos hroom]
    exact callImport_of_ok (lift_eq_ok.mp (hperform.symm.trans hok))
  · rw [if_neg hroom]
    exact callImport_of_error (lift_eq_code.mp (hperform.symm.trans hfault))

/-- Where no string comes to a number that is no word, an import does with words what it does with
numbers: every address is the number it should be, and a fault if it is no word or if something
there would not lie in memory. Only in a memory of all that can be addressed may a string come to
such a number. A list of strings is written if there is room for it and is a fault if not; nothing
changes but the words of its table and what lies from the start of its buffer on. -/
theorem perform_exact_or_wraps (hm : s.memory.size ≤ UInt32.size) :
    (∀ i, ¬ Wraps i s → perform i s = lift i.perform s) ∧
    (∀ i, Wraps i s →
      s.memory.size = UInt32.size ∧ ∃ s', perform i s = .error .outOfRange s') ∧
    ∀ items sizes get table buffer, Lists s.host items sizes get → ¬ Wraps (get table buffer) s →
      ∃ s', callImport true (get table buffer) s =
          (.ok (if Room s.memory.size table.toNat 0 buffer.toNat items then 0
            else Errno.fault.code), s') ∧
        s'.memory.SameBut s.memory (List.range' table.toNat (4 * items.length) ++
          List.range' buffer.toNat (s.memory.size - buffer.toNat)) :=
  ⟨fun _ => perform_eq hm, fun _ => perform_outOfRange hm,
    fun _ _ _ _ _ hlist => callImport_lists hm hlist⟩

def withAllMemory : GuestState where
  memory := { bytes := [], untouched := 4294967296 }
  host := Host.fresh ["", "hi"] [] [] .discard .discard 9 none

theorem arguments_near_top :
    (∃ s', callImport true (.argsGet 256 4294967291) withAllMemory = (.ok 0, s') ∧
      s'.memory.SameBut withAllMemory.memory (List.range' 256 8 ++ List.range' 4294967291 5)) ∧
    ∃ s', callImport true (.argsGet 256 4294967294) withAllMemory = (.ok Errno.fault.code, s') ∧
      s'.memory.SameBut withAllMemory.memory (List.range' 256 8 ++ List.range' 4294967294 2) := by
  have hm : withAllMemory.memory.size ≤ UInt32.size := by decide +kernel
  have hlist : Lists withAllMemory.host ["", "hi"] .argsSizesGet .argsGet := .args
  have hempty : (Utf8.encode "").length = 0 := by decide +kernel
  have htwo : (Utf8.encode "hi").length = 2 := by decide +kernel
  have hfree (buffer : Address) (h : buffer.toNat ≠ 4294967292 ∧ buffer.toNat ≠ 4294967295) :
      ¬ Wraps (.argsGet 256 buffer) withAllMemory := by
    have hsize : withAllMemory.memory.size = 4294967296 := by decide +kernel
    have htable : (256 : Address).toNat = 256 := rfl
    have hwords : UInt32.size = 4294967296 := rfl
    rw [wraps_lists hlist, listWraps_cons, listWraps_cons, StringWraps, StringFits, StringWraps,
      hempty, htwo, hsize, htable, hwords]
    simp only [not_listWraps_nil, and_false, or_false]
    omega
  obtain ⟨-, -, hlists⟩ := perform_exact_or_wraps hm
  exact ⟨hlists _ _ _ 256 4294967291 hlist (hfree _ (by decide)),
    hlists _ _ _ 256 4294967294 hlist (hfree _ (by decide))⟩

theorem arguments_wrap_to_bottom :
    let s' := (callImport true (.argsGet 256 4294967295) withAllMemory).2
    (callImport true (.argsGet 256 4294967295) withAllMemory).1.toOption = some 0 ∧
      (withAllMemory.memory.slice 0 3).toOption = some [0, 0, 0] ∧
      (s'.memory.slice 0 3).toOption = some [0x68, 0x69, 0] ∧
      (s'.memory.readNat 260 4).toOption = some 0 := by
  decide +kernel

end Imports

end Exact

end Buildbox
