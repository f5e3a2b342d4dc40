import Buildbox.Guest.Lister
import Buildbox.Proofs.Guest.Quiet
import Buildbox.Proofs.Guest.Slices
import Buildbox.Proofs.Host.Dirents
import Buildbox.Proofs.Host.Trees
import Buildbox.Proofs.Tree.Valid
import Buildbox.Proofs.Utf8.Order

/-! A guest sees every child of a directory once, however its buffer cuts the listing. -/

namespace Buildbox

namespace Lister

/-- The buffer and the word for the used length lie in memory and apart, and every entry of the
directory finds room in an empty buffer. -/
structure Fits (l : Lister) (m : GuestMemory) (d : Directory) : Prop where
  buffer : l.buffer.toNat + l.length.toNat ≤ m.size
  used : l.used.toNat + 4 ≤ m.size
  apart : l.used.toNat + 4 ≤ l.buffer.toNat ∨ l.buffer.toNat + l.length.toNat ≤ l.used.toNat
  header : Dirent.headerSize ≤ l.length.toNat
  names : ∀ name ∈ d.names, Dirent.headerSize + (Utf8.encode name).length ≤ l.length.toNat

variable {l : Lister} {s : GuestState} {d : Directory} {cookie : UInt64} {entries : Bytes}

theorem perform_fdReaddir {fd : Fd} {buffer used : Address} {length : UInt32}
    {filled memory : GuestMemory}
    (hread : s.host.fdReaddir fd cookie length.toNat = .ok entries)
    (hfilled : s.memory.write buffer (entries.take length.toNat) = .ok filled)
    (hmemory : filled.writeNat used 4 (entries.take length.toNat).length = .ok memory) :
    (Import.fdReaddir fd buffer length cookie used).perform s = .ok .goOn { s with memory } := by
  simp only [Import.perform, Import.call, bind, EStateM.bind, GuestM.lookup, GuestM.host,
    HostM.read, hread, GuestM.putBytes, GuestM.put, GuestM.store, hfilled, hmemory]
  rfl

theorem round_eq (hl : l.Fits s.memory d)
    (hread : s.host.fdReaddir l.fd cookie l.length.toNat = .ok entries) :
    ∃ memory, memory.size = s.memory.size ∧
      l.round cookie s = some (entries.take l.length.toNat, { s with memory }) := by
  obtain ⟨hbuffer, hused, hapart, -, -⟩ := hl
  have hlength : (entries.take l.length.toNat).length ≤ l.length.toNat := List.length_take_le _ _
  obtain ⟨filled, hfilled⟩ : ∃ filled,
      s.memory.write l.buffer (entries.take l.length.toNat) = .ok filled :=
    GuestMemory.exists_write (by omega)
  have hsize := GuestMemory.size_write hfilled
  obtain ⟨memory, hmemory⟩ : ∃ memory,
      filled.writeNat l.used 4 (entries.take l.length.toNat).length = .ok memory :=
    GuestMemory.exists_write (by rw [Bytes.length_ofNatLE]; omega)
  have hperform := perform_fdReaddir hread hfilled hmemory
  generalize entries.take l.length.toNat = part at *
  have hcount : memory.readNat l.used 4 = .ok part.length :=
    GuestMemory.readNat_writeNat hmemory (Nat.lt_of_le_of_lt hlength l.length.toNat_lt)
  have hpart : memory.slice l.buffer part.length = .ok part := by
    have happart : l.buffer.toNat + part.length ≤ l.used.toNat ∨
        l.used.toNat + 4 ≤ l.buffer.toNat := by omega
    rw [GuestMemory.slice_write_of_apart hmemory (by simpa using happart) (by omega)]
    exact GuestMemory.slice_write hfilled
  have hcall : GuestRun.callImport true (.fdReaddir l.fd l.buffer l.length cookie l.used) s =
      (.ok 0, { s with memory }) := by
    rw [GuestRun.callImport, hperform]
    rfl
  have hlook : GuestRun.look memory (.upTo l.buffer l.length.toNat l.used) =
      .ok (.bytes part) := by
    simp only [GuestRun.look, hcount, bind, Except.bind, Nat.min_eq_right hlength, hpart]
    rfl
  refine ⟨memory, (GuestMemory.size_write hmemory).trans hsize, ?_⟩
  simp only [round, hcall, hlook]

variable {mount : Nat} {path : List String} {preopen : Bool}

theorem exists_round (hl : l.Fits s.memory d)
    (hfd : s.host.fds.get? l.fd = some (.dir mount path preopen))
    (hdir : s.host.dirAt? mount path = some d) (n : Nat) (hn : n < UInt64.size) :
    ∃ bs memory seen left, l.round (UInt64.ofNat n) s = some (bs, { s with memory }) ∧
      l.Fits memory d ∧ d.children.drop n = seen ++ left ∧
      Listing.wholeEntries bs = Dirent.ofChildren mount path n seen ∧
      (bs.length < l.length.toNat → left = []) ∧
      (l.length.toNat ≤ bs.length → seen ≠ []) := by
  have hcookie : (UInt64.ofNat n).toNat = n := UInt64.toNat_ofNat_of_lt hn
  have hread := Host.fdReaddir_eq hfd hdir (UInt64.ofNat n) l.length.toNat
  rw [hcookie] at hread
  have hnames : ∀ c ∈ d.children.drop n,
      Dirent.headerSize + (Utf8.encode c.1).length ≤ l.length.toNat := fun c hc =>
    hl.names c.1 (List.mem_map_of_mem (List.mem_of_mem_drop hc))
  have hshort : ∀ c ∈ d.children.drop n, (Utf8.encode c.1).length < UInt32.size := fun c hc =>
    Nat.lt_of_le_of_lt (Nat.le_of_add_left_le (hnames c hc)) l.length.toNat_lt
  obtain ⟨seen, left, hsplit, hwhole, hleft, hseen⟩ :=
    Listing.wholeEntries_dirents mount path n (Nat.zero_le l.length.toNat) hshort
  rw [Nat.sub_zero] at hwhole hleft
  obtain ⟨memory, hsize, hround⟩ := round_eq hl hread
  refine ⟨_, memory, seen, left, hround, ?_, hsplit, hwhole, fun hroom => ?_, fun hfull => ?_⟩
  · exact ⟨hsize ▸ hl.buffer, hsize ▸ hl.used, hl.apart, hl.header, hl.names⟩
  · by_cases hne : left = []
    · exact hne
    · have hfull := hleft hne
      omega
  · cases hrest : d.children.drop n with
    | nil =>
      have hheader := hl.header
      rw [hrest, Host.dirents, List.take_nil] at hfull
      simp only [List.length_nil, Dirent.headerSize] at hfull hheader
      omega
    | cons c cs =>
      refine hseen c (by rw [hrest]; rfl) ?_
      rw [Nat.zero_add]
      exact hnames c (hrest ▸ List.mem_cons_self)

theorem list_eq (hl : l.Fits s.memory d)
    (hfd : s.host.fds.get? l.fd = some (.dir mount path preopen))
    (hdir : s.host.dirAt? mount path = some d) (hsize : d.size < UInt64.size) {n rounds : Nat}
    (hn : n ≤ d.size) (hrounds : d.size < n + rounds) :
    ∃ memory, l.list rounds (UInt64.ofNat n) s =
      some (Dirent.ofChildren mount path n (d.children.drop n), { s with memory }) := by
  induction rounds generalizing n s with
  | zero => omega
  | succ rounds ih =>
    obtain ⟨bs, memory, seen, left, hround, hfits, hsplit, hwhole, hlast, hmore⟩ :=
      exists_round hl hfd hdir n (Nat.lt_of_le_of_lt hn hsize)
    by_cases hroom : bs.length < l.length.toNat
    · refine ⟨memory, ?_⟩
      rw [hsplit, hlast hroom, List.append_nil]
      simp only [list, hround, hwhole, if_pos hroom]
    · have hseen := hmore (Nat.le_of_not_lt hroom)
      have hpos : 0 < seen.length := List.length_pos_iff.mpr hseen
      have hlength := congrArg List.length hsplit
      rw [List.length_drop, List.length_append] at hlength
      have hnext : ((Dirent.ofChildren mount path n seen).getLast?.map (·.next)).getD
          (UInt64.ofNat n) = UInt64.ofNat (n + seen.length) := by
        rw [Dirent.getLast?_ofChildren hseen]
        rfl
      have hrest : d.children.drop (n + seen.length) = left := by
        rw [← List.drop_drop, hsplit, List.drop_left]
      obtain ⟨memory', hlist⟩ := ih (s := { s with memory }) hfits hfd hdir (n := n + seen.length)
        (by simp only [Directory.size] at *; omega) (by omega)
      refine ⟨memory', ?_⟩
      simp only [list, hround, hwhole, if_neg hroom, hnext, hlist, hrest, Option.map_some]
      rw [hsplit, Dirent.ofChildren_append]

/-- Whatever the lengths of the names and wherever the buffer cuts them, the listing ends, and it
shows every child once, in the byte order of the names, with its name, the length of the name and
its kind. -/
theorem list_shows_every_child (hmounts : s.host.mounts.Valid)
    (hfd : s.host.fds.get? l.fd = some (.dir mount path preopen))
    (hdir : s.host.dirAt? mount path = some d) (hsize : d.size < UInt64.size)
    (hl : l.Fits s.memory d) {rounds : Nat} (hrounds : d.size < rounds) :
    ∃ seen memory, l.list rounds 0 s = some (seen, { s with memory }) ∧
      (seen.map fun e => (e.name, e.nameLength, e.kind)) =
        (d.children.map fun c =>
          (Utf8.encode c.1, (Utf8.encode c.1).length, (Host.entryKind c.2).code)) ∧
      (seen.map (·.name)).Pairwise (· < ·) := by
  obtain ⟨memory, hlist⟩ :=
    list_eq hl hfd hdir hsize (Nat.zero_le d.size) (by rwa [Nat.zero_add])
  have hshown := Dirent.map_ofChildren mount path 0 d.children
  refine ⟨_, memory, hlist, hshown, ?_⟩
  have hnames : (Dirent.ofChildren mount path 0 d.children).map (·.name) =
      d.names.map Utf8.encode := by
    have hfirst := congrArg (List.map (·.1)) hshown
    rw [List.map_map, List.map_map] at hfirst
    rw [Directory.names, List.map_map]
    exact hfirst
  rw [List.drop_zero, hnames]
  exact (Directory.pairwise_names (Host.valid_of_dirAt? hmounts hdir).sorted).map _
    fun _ _ => Utf8.encode_lt

theorem list_shows_cut_names :
    let d : Directory := .file "a" [] (.dir "bc" .empty (.file "d" [1] .empty))
    let l : Lister := { fd := 3, buffer := 16, length := 27, used := 0 }
    let s : GuestState :=
      { memory := { bytes := [], untouched := 64 }
        host := Host.new [] [] [{ name := ".", root := d }] .discard .discard }
    l.Fits s.memory d ∧ ∃ seen memory, l.list 4 0 s = some (seen, { s with memory }) ∧
      seen.map (·.name) = [Utf8.encode "a", Utf8.encode "bc", Utf8.encode "d"] := by
  intro d l s
  have hl : l.Fits s.memory d := {
    buffer := by decide
    used := by decide
    apart := by decide
    header := by decide
    names := by decide }
  have hmounts : s.host.mounts.Valid := by
    intro m hm
    obtain rfl := List.mem_singleton.mp hm
    exact ⟨⟨by decide, by decide, trivial, by decide, trivial⟩,
      ⟨by decide, trivial, by decide, trivial⟩⟩
  have hrounds : d.size < 4 := by decide
  obtain ⟨seen, memory, hlist, hshown, -⟩ :=
    list_shows_every_child hmounts (by rfl) (by rfl) (by decide) hl hrounds
  refine ⟨hl, seen, memory, hlist, ?_⟩
  have hnames := congrArg (List.map (·.1)) hshown
  rw [List.map_map, List.map_map] at hnames
  exact hnames

end Lister

end Buildbox
