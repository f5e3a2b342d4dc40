import Buildbox.Proofs.Guest.Faults
import Buildbox.Proofs.Guest.Slices
import Buildbox.Proofs.Utf8.Reading

/-! Lists of strings in guest memory. They stand one after another with a zero byte behind each, and
a table says where they start. A guest that follows the table finds them again. -/

namespace Buildbox

namespace GuestMemory

def textAt (m : GuestMemory) (p : Nat) : Except Errno String :=
  let bytes := (m.contents.drop p).takeWhile (· ≠ 0)
  if m.size ≤ p + bytes.length then .error .fault
  else match Utf8.decode? bytes with
    | some s => .ok s
    | none => .error .ilseq

def textsFrom (m : GuestMemory) (table : Address) : (index count : Nat) → Except Errno (List String)
  | _, 0 => .ok []
  | i, count + 1 => do
    let p ← m.readNat (← table.add? (4 * i)) 4
    let s ← m.textAt p
    let rest ← m.textsFrom table (i + 1) count
    return s :: rest

def terminated (items : List String) : Bytes :=
  items.flatMap fun s => Utf8.encode s ++ [0]

def slots : Nat → List String → Bytes
  | _, [] => []
  | start, s :: rest =>
    Bytes.ofNatLE 4 start ++ slots (start + ((Utf8.encode s).length + 1)) rest

variable {m : GuestMemory} {table : Address} {items : List String} {s : String} {start i : Nat}

theorem stringsSize_cons (s : String) (items : List String) :
    GuestM.stringsSize (s :: items) = (Utf8.encode s).length + 1 + GuestM.stringsSize items := by
  have hfrom (n : Nat) : items.foldl (fun n s => n + (Utf8.encode s).length + 1) n =
      n + GuestM.stringsSize items := by
    induction items generalizing n with
    | nil => rfl
    | cons t items ih =>
      have ht : GuestM.stringsSize (t :: items) =
        0 + (Utf8.encode t).length + 1 + GuestM.stringsSize items := ih _
      rw [List.foldl_cons, ih, ht]
      omega
  have hs : GuestM.stringsSize (s :: items) =
    0 + (Utf8.encode s).length + 1 + GuestM.stringsSize items := hfrom _
  rw [hs, Nat.zero_add]

section Reading

theorem textAt_of_holds (hs : '\x00' ∉ s.toList)
    (hin : start + ((Utf8.encode s).length + 1) ≤ m.size)
    (h : m.Holds (List.range' start ((Utf8.encode s).length + 1)) (Utf8.encode s ++ [0])) :
    m.textAt start = .ok s := by
  have hlength : (Utf8.encode s ++ [0]).length = (Utf8.encode s).length + 1 :=
    List.length_append
  rw [← hlength] at h hin
  -- The string has no zero byte itself, and the first one is that behind it.
  have hsplit := List.take_append_drop (Utf8.encode s ++ [0]).length (m.contents.drop start)
  rw [(holds_range' hin).mp h] at hsplit
  have hbytes : (m.contents.drop start).takeWhile (· ≠ 0) = Utf8.encode s := by
    have hall : ∀ b ∈ Utf8.encode s, decide (b ≠ 0) = true := fun b hb =>
      decide_eq_true fun hzero => Utf8.zero_not_mem_encode hs (hzero ▸ hb)
    rw [← hsplit, List.append_assoc, List.takeWhile_append_of_pos hall]
    simp
  rw [hlength] at hin
  rw [textAt, hbytes, if_neg (by omega), Utf8.decode?_encode]

theorem textsFrom_of_holds (hm : m.size < UInt32.size)
    (htable : table.toNat + 4 * (i + items.length) ≤ m.size)
    (hbuffer : start + GuestM.stringsSize items ≤ m.size)
    (hwords : m.Holds (List.range' (table.toNat + 4 * i) (4 * items.length)) (slots start items))
    (htexts : m.Holds (List.range' start (GuestM.stringsSize items)) (terminated items))
    (hnul : ∀ t ∈ items, '\x00' ∉ t.toList) : m.textsFrom table i items.length = .ok items := by
  induction items generalizing i start with
  | nil => rfl
  | cons t items ih =>
    have hcount : 4 * (items.length + 1) = 4 + 4 * items.length := by omega
    have htableNext : table.toNat + 4 * i + 4 = table.toNat + 4 * (i + 1) := by omega
    rw [stringsSize_cons] at hbuffer htexts
    rw [List.length_cons] at htable hwords
    rw [hcount, ← List.range'_append_1, slots, holds_append (by simp), htableNext] at hwords
    rw [← List.range'_append_1, terminated, List.flatMap_cons, holds_append (by simp)] at htexts
    obtain ⟨slot, hslot, hslotAt⟩ : ∃ slot : Address, table.add? (4 * i) = .ok slot ∧
      slot.toNat = table.toNat + 4 * i := exists_add? (by omega)
    have hword : m.readNat slot 4 = .ok start := by
      have hroom : start < UInt32.size := by omega
      rw [readNat_of_holds (by omega) (hslotAt ▸ hwords.1)]
      exact congrArg Except.ok (Nat.mod_eq_of_lt hroom)
    have htext : m.textAt start = .ok t :=
      textAt_of_holds (hnul t List.mem_cons_self) (by omega) htexts.1
    have hrest := ih (by omega) (by omega) hwords.2 htexts.2
      fun u hu => hnul u (List.mem_cons_of_mem t hu)
    rw [List.length_cons, textsFrom]
    simp only [hslot, hword, htext, hrest, bind, Except.bind]
    rfl

end Reading

end GuestMemory

namespace GuestM

open GuestMemory

variable {table : Address} {items : List String}

def putString (table : Address) (i : Nat) (cursor : Address) (t : String) : GuestM Address := do
  let slot ← load fun _ => table.add? (UInt32.ofNat i * 4).toNat
  put slot 4 cursor.toNat
  putBytes cursor (Utf8.encode t)
  let stop ← load fun _ => cursor.add? (UInt32.ofNat (Utf8.encode t).length).toNat
  put stop 1 0
  return stop + 1

theorem putStrings_cons (table : Address) (i : Nat) (cursor : Address) (t : String)
    (items : List String) : putStrings table i cursor (t :: items) =
      putString table i cursor t >>= fun next => putStrings table (i + 1) next items := by
  simp only [putStrings, putString, bind_assoc, pure_bind]

theorem toNat_slotOffset {i : Nat} (h : 4 * i < UInt32.size) :
    (UInt32.ofNat i * 4).toNat = 4 * i := by
  have hfour : (4 : UInt32).toNat = 4 := rfl
  rw [UInt32.toNat_mul, UInt32.toNat_ofNat_of_lt' (by omega), hfour, Nat.mul_comm i]
  exact Nat.mod_eq_of_lt h

theorem putString_ok {s : GuestState} {cursor : Address} {i : Nat} {t : String}
    (hm : s.memory.size < UInt32.size) (htable : table.toNat + 4 * i + 4 ≤ s.memory.size)
    (hbuffer : cursor.toNat + ((Utf8.encode t).length + 1) ≤ s.memory.size)
    (hapart : table.toNat + 4 * i + 4 ≤ cursor.toNat ∨
      cursor.toNat + ((Utf8.encode t).length + 1) ≤ table.toNat + 4 * i) :
    ∃ next m, putString table i cursor t s = .ok next { s with memory := m } ∧
      next.toNat = cursor.toNat + ((Utf8.encode t).length + 1) ∧ m.size = s.memory.size ∧
      m.Holds (List.range' (table.toNat + 4 * i) 4) (Bytes.ofNatLE 4 cursor.toNat) ∧
      m.Holds (List.range' cursor.toNat ((Utf8.encode t).length + 1)) (Utf8.encode t ++ [0]) ∧
      m.SameBut s.memory (List.range' (table.toNat + 4 * i) 4 ++
        List.range' cursor.toNat ((Utf8.encode t).length + 1)) := by
  have hoffset := toNat_slotOffset (i := i) (by omega)
  have hlength : (UInt32.ofNat (Utf8.encode t).length).toNat = (Utf8.encode t).length :=
    UInt32.toNat_ofNat_of_lt' (by omega)
  obtain ⟨slot, hslot, hslotAt⟩ := exists_add? (a := table)
    (n := (UInt32.ofNat i * 4).toNat) (by omega)
  rw [hoffset] at hslotAt
  obtain ⟨m₁, hw₁⟩ : ∃ m₁, s.memory.writeNat slot 4 cursor.toNat = .ok m₁ :=
    exists_writeNat (by omega) _
  have hsize₁ := size_write hw₁
  obtain ⟨m₂, hw₂⟩ : ∃ m₂, m₁.write cursor (Utf8.encode t) = .ok m₂ := exists_write (by omega)
  have hsize₂ := size_write hw₂
  obtain ⟨stop, hstop, hstopAt⟩ := exists_add? (a := cursor)
    (n := (UInt32.ofNat (Utf8.encode t).length).toNat) (by omega)
  rw [hlength] at hstopAt
  obtain ⟨m₃, hw₃⟩ : ∃ m₃, m₂.writeNat stop 1 0 = .ok m₃ := exists_writeNat (by omega) 0
  have hnext : (stop + 1).toNat = cursor.toNat + ((Utf8.encode t).length + 1) := by
    have hone : (1 : UInt32).toNat = 1 := rfl
    have hroom : cursor.toNat + (Utf8.encode t).length + 1 < UInt32.size := by omega
    rw [UInt32.toNat_add, hone, hstopAt]
    exact Nat.mod_eq_of_lt hroom
  have hword := holds_write hw₁
  have hbytes := holds_write hw₂
  have hend := holds_write hw₃
  have hrest := ((sameBut_write hw₁).trans (sameBut_write hw₂)).trans (sameBut_write hw₃)
  rw [Bytes.length_ofNatLE, hslotAt] at hword
  rw [Bytes.length_ofNatLE, hstopAt] at hend
  rw [Bytes.length_ofNatLE, Bytes.length_ofNatLE, hslotAt, hstopAt] at hrest
  refine ⟨stop + 1, m₃, ?_, hnext, (size_write hw₃).trans (hsize₂.trans hsize₁), ?_, ?_, ?_⟩
  · exact HostM.bind_eq_ok.mpr ⟨slot, s, load_eq_ok.mpr ⟨hslot, rfl⟩,
      HostM.bind_eq_ok.mpr ⟨(), _, put_eq_ok.mpr ⟨m₁, hw₁, rfl⟩,
      HostM.bind_eq_ok.mpr ⟨(), _, putBytes_eq_ok.mpr ⟨m₂, hw₂, rfl⟩,
      HostM.bind_eq_ok.mpr ⟨stop, _, load_eq_ok.mpr ⟨hstop, rfl⟩,
      HostM.bind_eq_ok.mpr ⟨(), _, put_eq_ok.mpr ⟨m₃, hw₃, rfl⟩, rfl⟩⟩⟩⟩⟩
  · exact (hword.write hw₂ (by omega)).write hw₃ (by rw [Bytes.length_ofNatLE]; omega)
  · rw [← List.range'_append_1]
    exact (hbytes.write hw₃ (by omega)).append hend
  · refine hrest.mono fun a ha => ?_
    simp only [List.mem_append, List.mem_range'_1] at ha ⊢
    omega

theorem putStrings_ok {s : GuestState} {cursor : Address} {i : Nat}
    (hm : s.memory.size < UInt32.size)
    (htable : table.toNat + 4 * (i + items.length) ≤ s.memory.size)
    (hbuffer : cursor.toNat + stringsSize items ≤ s.memory.size)
    (hapart : table.toNat + 4 * (i + items.length) ≤ cursor.toNat ∨
      cursor.toNat + stringsSize items ≤ table.toNat + 4 * i) :
    ∃ m, putStrings table i cursor items s = .ok () { s with memory := m } ∧
      m.size = s.memory.size ∧
      m.Holds (List.range' (table.toNat + 4 * i) (4 * items.length))
        (slots cursor.toNat items) ∧
      m.Holds (List.range' cursor.toNat (stringsSize items)) (terminated items) ∧
      m.SameBut s.memory (List.range' (table.toNat + 4 * i) (4 * items.length) ++
        List.range' cursor.toNat (stringsSize items)) := by
  induction items generalizing s cursor i with
  | nil => exact ⟨s.memory, rfl, rfl, rfl, rfl, fun _ _ => rfl⟩
  | cons t items ih =>
    rw [stringsSize_cons] at hbuffer hapart
    rw [List.length_cons] at htable hapart
    obtain ⟨next, m₁, hone, hnext, hsize₁, hword, htext, hsame₁⟩ :=
      @putString_ok table s cursor i t hm (by omega) (by omega) (by omega)
    obtain ⟨m, hput, hsize, hwords, htexts, hsame⟩ :=
      @ih { s with memory := m₁ } next (i + 1) (by rwa [hsize₁]) (by rw [hsize₁]; omega)
        (by rw [hsize₁]; omega) (by omega)
    have hcount : 4 * (items.length + 1) = 4 + 4 * items.length := by omega
    have htableNext : table.toNat + 4 * (i + 1) = table.toNat + 4 * i + 4 := by omega
    -- The other strings lie behind this one and their words behind its word, so that neither is
    -- changed by them.
    rw [hnext] at hwords htexts hsame
    rw [htableNext] at hwords hsame
    rw [stringsSize_cons, List.length_cons, hcount, terminated, List.flatMap_cons, slots]
    refine ⟨m, ?_, hsize.trans hsize₁, ?_, ?_, ?_⟩
    · rw [putStrings_cons]
      exact HostM.bind_eq_ok.mpr ⟨next, _, hone, hput⟩
    · rw [← List.range'_append_1]
      refine (hword.sameBut hsame fun a ha ha' => ?_).append hwords
      simp only [List.mem_append, List.mem_range'_1] at ha ha'
      omega
    · rw [← List.range'_append_1]
      refine (htext.sameBut hsame fun a ha ha' => ?_).append htexts
      simp only [List.mem_append, List.mem_range'_1] at ha ha'
      omega
    · refine (hsame₁.trans hsame).mono fun a ha => ?_
      simp only [List.mem_append, List.mem_range'_1] at ha ⊢
      omega

theorem putSizes_ok {s : GuestState} {count size : Address} (items : List String)
    (hcount : count.toNat + 4 ≤ s.memory.size) (hsize : size.toNat + 4 ≤ s.memory.size)
    (hapart : count.toNat + 4 ≤ size.toNat ∨ size.toNat + 4 ≤ count.toNat) :
    ∃ m, putSizes count size items s = .ok () { s with memory := m } ∧
      m.size = s.memory.size ∧
      m.Holds (List.range' count.toNat 4) (Bytes.ofNatLE 4 items.length) ∧
      m.Holds (List.range' size.toNat 4) (Bytes.ofNatLE 4 (stringsSize items)) ∧
      m.SameBut s.memory (List.range' count.toNat 4 ++ List.range' size.toNat 4) := by
  obtain ⟨m₁, hw₁⟩ : ∃ m₁, s.memory.writeNat count 4 items.length = .ok m₁ :=
    exists_writeNat hcount _
  have hsize₁ := size_write hw₁
  obtain ⟨m, hw⟩ : ∃ m, m₁.writeNat size 4 (stringsSize items) = .ok m :=
    exists_writeNat (by rwa [hsize₁]) _
  have hfirst := holds_write hw₁
  have hsecond := holds_write hw
  have hrest := (sameBut_write hw₁).trans (sameBut_write hw)
  rw [Bytes.length_ofNatLE] at hfirst hsecond
  rw [Bytes.length_ofNatLE, Bytes.length_ofNatLE] at hrest
  refine ⟨m, ?_, (size_write hw).trans hsize₁, ?_, hsecond, hrest⟩
  · exact HostM.bind_eq_ok.mpr ⟨(), _, put_eq_ok.mpr ⟨m₁, hw₁, rfl⟩,
      put_eq_ok.mpr ⟨m, hw, rfl⟩⟩
  · exact hfirst.write hw (by rwa [Bytes.length_ofNatLE])

end GuestM

namespace Import

open GuestMemory GuestM

variable {s s' : GuestState} {items : List String} {sizes get : Address → Address → Import}
  {table buffer count size : Address}

inductive Lists (h : Host) : List String → (sizes get : Address → Address → Import) → Prop where
  | args : Lists h h.args .argsSizesGet .argsGet
  | environ : Lists h h.env .environSizesGet .environGet

/-- How many strings there are, and the room they take, have been stored in two words, as far as
they fit. -/
structure Told (s : GuestState) (count size : Address) (items : List String) (s' : GuestState) :
    Prop where
  host : s'.host = s.host
  memorySize : s'.memory.size = s.memory.size
  countWord : s'.memory.readNat count 4 = .ok (items.length % UInt32.size)
  sizeWord : s'.memory.readNat size 4 = .ok (stringsSize items % UInt32.size)
  rest : s'.memory.SameBut s.memory (List.range' count.toNat 4 ++ List.range' size.toNat 4)

/-- The strings fill a buffer just to its end, and the table leads to them. -/
structure Given (s : GuestState) (table buffer : Address) (items : List String)
    (s' : GuestState) : Prop where
  host : s'.host = s.host
  memorySize : s'.memory.size = s.memory.size
  texts : s'.memory.textsFrom table 0 items.length = .ok items
  filled : s'.memory.Holds (List.range' buffer.toNat (stringsSize items)) (terminated items)
  rest : s'.memory.SameBut s.memory (List.range' table.toNat (4 * items.length) ++
    List.range' buffer.toNat (stringsSize items))

theorem Lists.callImport_sizes (h : Lists s.host items sizes get) :
    GuestRun.callImport true (sizes count size) s = (.ok 0, s') ↔
      putSizes count size items s = .ok () s' := by
  cases h with
  | args | environ => exact callImport_eq_zero rfl

theorem Lists.callImport_get (h : Lists s.host items sizes get) :
    GuestRun.callImport true (get table buffer) s = (.ok 0, s') ↔
      putStrings table 0 buffer items s = .ok () s' := by
  cases h with
  | args | environ => exact callImport_eq_zero rfl

theorem Lists.told (h : Lists s.host items sizes get) (hcount : count.toNat + 4 ≤ s.memory.size)
    (hsize : size.toNat + 4 ≤ s.memory.size)
    (hapart : count.toNat + 4 ≤ size.toNat ∨ size.toNat + 4 ≤ count.toNat) :
    ∃ s', GuestRun.callImport true (sizes count size) s = (.ok 0, s') ∧
      Told s count size items s' := by
  obtain ⟨m, hput, hsame, hfirst, hsecond, hrest⟩ := putSizes_ok items hcount hsize hapart
  exact ⟨_, h.callImport_sizes.mpr hput, rfl, hsame, readNat_of_holds (hsame ▸ hcount) hfirst,
    readNat_of_holds (hsame ▸ hsize) hsecond, hrest⟩

theorem Lists.given (h : Lists s.host items sizes get) (hm : s.memory.size < UInt32.size)
    (hnul : ∀ t ∈ items, '\x00' ∉ t.toList)
    (htable : table.toNat + 4 * items.length ≤ s.memory.size)
    (hbuffer : buffer.toNat + stringsSize items ≤ s.memory.size)
    (hapart : table.toNat + 4 * items.length ≤ buffer.toNat ∨
      buffer.toNat + stringsSize items ≤ table.toNat) :
    ∃ s', GuestRun.callImport true (get table buffer) s = (.ok 0, s') ∧
      Given s table buffer items s' := by
  obtain ⟨m, hput, hsame, hwords, htexts, hrest⟩ :=
    @putStrings_ok table items s buffer 0 hm (by rwa [Nat.zero_add]) hbuffer
      (by rwa [Nat.zero_add])
  have hback : m.textsFrom table 0 items.length = .ok items :=
    textsFrom_of_holds (by rwa [hsame]) (by rwa [hsame, Nat.zero_add]) (by rwa [hsame]) hwords
      htexts hnul
  exact ⟨_, h.callImport_get.mpr hput, rfl, hsame, hback, htexts, hrest⟩

/-- A guest that asks for the sizes of a list is told how many strings there are and the room that
they take. Strings without zero characters that it then asks for, with a table of a word for each
and a buffer of that room which lie apart in memory, are written there and nowhere else; they fill
the buffer, and are read back over the table in their order. The sizes it was told of such a list
were not cut to a word. -/
theorem string_lists_read_back (hnul : ∀ t ∈ items, '\x00' ∉ t.toList) :
    (∀ s : GuestState, Lists s.host items sizes get → ∀ count size : Address,
      count.toNat + 4 ≤ s.memory.size → size.toNat + 4 ≤ s.memory.size →
      (count.toNat + 4 ≤ size.toNat ∨ size.toNat + 4 ≤ count.toNat) →
        ∃ s', GuestRun.callImport true (sizes count size) s = (.ok 0, s') ∧
          Told s count size items s') ∧
    ∀ s : GuestState, Lists s.host items sizes get → s.memory.size < UInt32.size →
      ∀ table buffer : Address, table.toNat + 4 * items.length ≤ s.memory.size →
      buffer.toNat + stringsSize items ≤ s.memory.size →
      (table.toNat + 4 * items.length ≤ buffer.toNat ∨
        buffer.toNat + stringsSize items ≤ table.toNat) →
        items.length < UInt32.size ∧ stringsSize items < UInt32.size ∧
          ∃ s', GuestRun.callImport true (get table buffer) s = (.ok 0, s') ∧
            Given s table buffer items s' := by
  constructor
  · intro s hlist count size hcount hsize hapart
    exact hlist.told hcount hsize hapart
  · intro s hlist hm table buffer htable hbuffer hapart
    exact ⟨by omega, by omega, hlist.given hm hnul htable hbuffer hapart⟩

def withThreeArguments : GuestState where
  memory := { bytes := [], untouched := 32 }
  host := Host.fresh ["a", "", "é"] [] [] .discard .discard 9 none

theorem three_arguments_read_back :
    (∃ s', GuestRun.callImport true (.argsSizesGet 20 24) withThreeArguments = (.ok 0, s') ∧
      Told withThreeArguments 20 24 ["a", "", "é"] s') ∧
    ∃ s', GuestRun.callImport true (.argsGet 0 12) withThreeArguments = (.ok 0, s') ∧
      Given withThreeArguments 0 12 ["a", "", "é"] s' := by
  have hlist : Lists withThreeArguments.host ["a", "", "é"] .argsSizesGet .argsGet := .args
  have hm : withThreeArguments.memory.size < UInt32.size := by decide
  have hsize : stringsSize ["a", "", "é"] = 6 := by decide +kernel
  have hnul : ∀ t ∈ ["a", "", "é"], '\x00' ∉ t.toList := by decide +kernel
  obtain ⟨htold, hgiven⟩ := @string_lists_read_back _ .argsSizesGet .argsGet hnul
  obtain ⟨-, -, hget⟩ := hgiven _ hlist hm 0 12 (by decide) (by rw [hsize]; decide)
    (.inl (by decide))
  exact ⟨htold _ hlist 20 24 (by decide) (by decide) (.inl (by decide)), hget⟩

end Import

end Buildbox
