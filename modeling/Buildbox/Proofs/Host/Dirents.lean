import Buildbox.Host.Files
import Buildbox.Host.Listing
import Buildbox.Proofs.Host.Trees

/-! What a reader makes of the entries of a listing, and of a listing that is cut. -/

namespace Buildbox

namespace Dirent

def ofChild (mount : Nat) (path : List String) (index : Nat) (child : String × Entry) : Dirent where
  next := UInt64.ofNat (index + 1)
  ino := inode mount (path ++ [child.1])
  nameLength := (Utf8.encode child.1).length
  kind := (Host.entryKind child.2).code
  padding := [0, 0, 0]
  name := Utf8.encode child.1

def ofChildren (mount : Nat) (path : List String) : Nat → List (String × Entry) → List Dirent
  | _, [] => []
  | index, child :: rest =>
    ofChild mount path index child :: ofChildren mount path (index + 1) rest

variable {mount : Nat} {path : List String} {index : Nat} {child : String × Entry}
  {cs ds : List (String × Entry)}

theorem ofChildren_append :
    ofChildren mount path index (cs ++ ds) =
      ofChildren mount path index cs ++ ofChildren mount path (index + cs.length) ds := by
  induction cs generalizing index with
  | nil => rfl
  | cons c cs ih =>
    rw [List.cons_append, ofChildren, ofChildren, ih, List.length_cons, Nat.add_right_comm]
    rfl

theorem map_ofChildren (mount : Nat) (path : List String) (index : Nat)
    (cs : List (String × Entry)) :
    ((ofChildren mount path index cs).map fun e => (e.name, e.nameLength, e.kind)) =
      cs.map fun c => (Utf8.encode c.1, (Utf8.encode c.1).length, (Host.entryKind c.2).code) := by
  induction cs generalizing index with
  | nil => rfl
  | cons c cs ih =>
    rw [ofChildren, List.map_cons, List.map_cons, ih]
    rfl

theorem getLast?_ofChildren (hcs : cs ≠ []) :
    ((ofChildren mount path index cs).getLast?).map (·.next) =
      some (UInt64.ofNat (index + cs.length)) := by
  obtain rfl | ⟨init, last, rfl⟩ := List.eq_nil_or_concat cs
  · exact absurd rfl hcs
  · rw [List.concat_eq_append, ofChildren_append, List.length_append]
    simp [ofChildren, ofChild, Nat.add_assoc]

def header (mount : Nat) (path : List String) (index : Nat) (child : String × Entry) : Bytes :=
  Bytes.ofNatLE 8 (index + 1) ++ Bytes.ofNatLE 8 (inode mount (path ++ [child.1])).toNat ++
    Bytes.ofNatLE 4 (Utf8.encode child.1).length ++ [(Host.entryKind child.2).code, 0, 0, 0]

@[simp] theorem length_header : (header mount path index child).length = headerSize := by
  simp [header, headerSize]

theorem dirent_eq (name : String) (e : Entry) :
    Host.dirent mount path index name e =
      header mount path index (name, e) ++ Utf8.encode name := by
  simp [Host.dirent, header]

theorem length_dirent (mount : Nat) (path : List String) (index : Nat) (name : String) (e : Entry) :
    (Host.dirent mount path index name e).length = headerSize + (Utf8.encode name).length := by
  simp [dirent_eq]

theorem read?_of_short {bs : Bytes} (h : bs.length < headerSize) : read? bs = none := by
  have hshort : (bs.drop 20).length < 4 := by
    rw [List.length_drop]
    simp only [headerSize] at h
    omega
  unfold read?
  split
  · next heq =>
    rw [heq] at hshort
    simp only [List.length_cons] at hshort
    omega
  · rfl

theorem ofNat_toNatLE_ofNatLE (n : Nat) :
    UInt64.ofNat (Bytes.toNatLE (Bytes.ofNatLE 8 n)) = UInt64.ofNat n := by
  rw [Bytes.toNatLE_ofNatLE]
  exact UInt64.ofNat_mod_size

theorem read?_fields {next ino nameLength rest : Bytes} {kind a b c : UInt8}
    (hnext : next.length = 8) (hino : ino.length = 8) (hlength : nameLength.length = 4) :
    read? (next ++ ino ++ nameLength ++ kind :: a :: b :: c :: rest) =
      some ({ next := UInt64.ofNat (Bytes.toNatLE next), ino := UInt64.ofNat (Bytes.toNatLE ino)
              nameLength := Bytes.toNatLE nameLength, kind, padding := [a, b, c]
              name := rest.take (Bytes.toNatLE nameLength) },
        rest.drop (Bytes.toNatLE nameLength)) := by
  have hkind : (next ++ ino ++ nameLength ++ kind :: a :: b :: c :: rest).drop 20 =
      kind :: a :: b :: c :: rest := List.drop_left' (by simp [hnext, hino, hlength])
  have htail : (next ++ ino ++ nameLength ++ kind :: a :: b :: c :: rest).drop 16 =
      nameLength ++ kind :: a :: b :: c :: rest := by
    rw [List.append_assoc _ nameLength]
    exact List.drop_left' (by simp [hnext, hino])
  have hmiddle : (next ++ ino ++ nameLength ++ kind :: a :: b :: c :: rest).drop 8 =
      ino ++ (nameLength ++ kind :: a :: b :: c :: rest) := by
    simp only [List.append_assoc]
    exact List.drop_left' hnext
  have hfirst : (next ++ ino ++ nameLength ++ kind :: a :: b :: c :: rest).take 8 = next := by
    simp only [List.append_assoc]
    exact List.take_left' hnext
  simp only [read?, hkind, htail, hmiddle, List.drop_zero, hfirst, List.take_left' hino,
    List.take_left' hlength]

theorem read?_header (mount : Nat) (path : List String) (index : Nat) (child : String × Entry)
    (bs : Bytes) (hname : (Utf8.encode child.1).length < UInt32.size) :
    read? (header mount path index child ++ bs) =
      some ({ ofChild mount path index child with name := bs.take (Utf8.encode child.1).length },
        bs.drop (Utf8.encode child.1).length) := by
  have hlength : Bytes.toNatLE (Bytes.ofNatLE 4 (Utf8.encode child.1).length) =
      (Utf8.encode child.1).length := by
    rw [Bytes.toNatLE_ofNatLE]
    exact Nat.mod_eq_of_lt hname
  rw [header, List.append_assoc, List.cons_append, List.cons_append, List.cons_append,
    List.cons_append, List.nil_append, read?_fields (by simp) (by simp) (by simp), hlength,
    ofNat_toNatLE_ofNatLE, ofNat_toNatLE_ofNatLE, UInt64.ofNat_toNat]
  rfl

theorem read?_dirent (mount : Nat) (path : List String) (index : Nat) (name : String) (e : Entry)
    (rest : Bytes) (hname : (Utf8.encode name).length < UInt32.size) :
    read? (Host.dirent mount path index name e ++ rest) =
      some (ofChild mount path index (name, e), rest) := by
  have hread := read?_header mount path index (name, e) (Utf8.encode name ++ rest) hname
  rwa [← List.append_assoc, ← dirent_eq, List.take_left, List.drop_left] at hread

end Dirent

namespace Listing

variable {mount : Nat} {path : List String} {index : Nat} {name : String} {e : Entry}
  {bs rest : Bytes} {n : Nat}

theorem read_of_none (h : Dirent.read? bs = none) : (read bs).1 = [] := by
  unfold read
  split
  · rfl
  · next heq =>
    rw [h] at heq
    cases heq

theorem read_of_some {d : Dirent} (h : Dirent.read? bs = some (d, rest)) :
    (read bs).1 = d :: (read rest).1 := by
  rw [read]
  split
  · next heq =>
    rw [h] at heq
    cases heq
  · next heq =>
    rw [h] at heq
    cases heq
    rfl

theorem wholeEntries_of_short (h : bs.length < Dirent.headerSize) : wholeEntries bs = [] := by
  rw [wholeEntries, read_of_none (Dirent.read?_of_short h)]
  rfl

theorem wholeEntries_dirent (hname : (Utf8.encode name).length < UInt32.size) :
    wholeEntries (Host.dirent mount path index name e ++ rest) =
      Dirent.ofChild mount path index (name, e) :: wholeEntries rest := by
  have hread := Dirent.read?_dirent mount path index name e rest hname
  have hwhole : (Dirent.ofChild mount path index (name, e)).isWhole = true := by
    simp [Dirent.isWhole, Dirent.ofChild]
  rw [wholeEntries, read_of_some hread]
  exact List.filter_cons_of_pos hwhole

theorem wholeEntries_cut (hname : (Utf8.encode name).length < UInt32.size)
    (hcut : n < (Host.dirent mount path index name e).length) :
    wholeEntries ((Host.dirent mount path index name e).take n) = [] := by
  by_cases hn : n < Dirent.headerSize
  · exact wholeEntries_of_short (Nat.lt_of_le_of_lt (List.length_take_le _ _) hn)
  · obtain ⟨m, rfl⟩ := Nat.exists_eq_add_of_le (Nat.le_of_not_lt hn)
    have hm : m < (Utf8.encode name).length := by
      rw [Dirent.length_dirent] at hcut
      omega
    have hread := Dirent.read?_header mount path index (name, e) ((Utf8.encode name).take m) hname
    have htake : (Host.dirent mount path index name e).take (Dirent.headerSize + m) =
        Dirent.header mount path index (name, e) ++ (Utf8.encode name).take m := by
      rw [Dirent.dirent_eq, List.take_append, Dirent.length_header, Nat.add_sub_cancel_left,
        List.take_of_length_le (by simp)]
    have hpart : ((Utf8.encode name).take m).length < (Utf8.encode name).length := by
      rw [List.length_take]
      omega
    rw [List.take_of_length_le (Nat.le_of_lt hpart), List.drop_of_length_le (Nat.le_of_lt hpart)]
      at hread
    rw [htake, wholeEntries, read_of_some hread, read_of_none (Dirent.read?_of_short (by decide))]
    exact List.filter_cons_of_neg fun hwhole => Nat.ne_of_lt hpart (of_decide_eq_true hwhole)

theorem wholeEntries_dirents (mount : Nat) (path : List String) (index : Nat) {limit used : Nat}
    {cs : List (String × Entry)} (hused : used ≤ limit)
    (hnames : ∀ c ∈ cs, (Utf8.encode c.1).length < UInt32.size) :
    ∃ seen left, cs = seen ++ left ∧
      wholeEntries ((Host.dirents mount path limit index used cs).take (limit - used)) =
        Dirent.ofChildren mount path index seen ∧
      (left ≠ [] →
        used + ((Host.dirents mount path limit index used cs).take (limit - used)).length =
          limit) ∧
      (∀ c ∈ cs.head?, used + Dirent.headerSize + (Utf8.encode c.1).length ≤ limit →
        seen ≠ []) := by
  induction cs generalizing index used with
  | nil =>
    refine ⟨[], [], rfl, ?_, nofun, nofun⟩
    rw [Host.dirents, List.take_nil]
    exact wholeEntries_of_short (by decide)
  | cons c cs ih =>
    obtain ⟨name, e⟩ := c
    have hname := hnames _ List.mem_cons_self
    have hlength := Dirent.length_dirent mount path index name e
    by_cases hfull : limit ≤ used
    · obtain rfl := Nat.le_antisymm hused hfull
      rw [Host.dirents, if_pos hfull, List.take_nil]
      refine ⟨[], _, rfl, wholeEntries_of_short (by decide), fun _ => rfl, ?_⟩
      rintro c ⟨⟩ hfits
      simp only [Dirent.headerSize] at hfits
      omega
    rw [Host.dirents, if_neg hfull]
    by_cases hfits : used + (Host.dirent mount path index name e).length ≤ limit
    · obtain ⟨seen, left, rfl, hread, hleft, -⟩ := @ih (index + 1) _ hfits
        fun c hc => hnames c (List.mem_cons_of_mem _ hc)
      have htake : (Host.dirent mount path index name e ++ Host.dirents mount path limit (index + 1)
            (used + (Host.dirent mount path index name e).length) (seen ++ left)).take
              (limit - used) =
          Host.dirent mount path index name e ++ (Host.dirents mount path limit (index + 1)
            (used + (Host.dirent mount path index name e).length) (seen ++ left)).take
              (limit - (used + (Host.dirent mount path index name e).length)) := by
        rw [List.take_append, List.take_of_length_le (by omega), Nat.sub_sub]
      refine ⟨(name, e) :: seen, left, rfl, ?_, fun hne => ?_, fun _ _ _ => List.cons_ne_nil _ _⟩
      · rw [htake, wholeEntries_dirent hname, hread]
        rfl
      · rw [htake, List.length_append, ← Nat.add_assoc]
        exact hleft hne
    · have hcut : limit - used < (Host.dirent mount path index name e).length := by omega
      rw [List.take_append_of_le_length (Nat.le_of_lt hcut)]
      refine ⟨[], _, rfl, wholeEntries_cut hname hcut, fun _ => ?_, ?_⟩
      · rw [List.length_take, Nat.min_eq_left (Nat.le_of_lt hcut), Nat.add_sub_cancel' hused]
      · rintro c ⟨⟩ hroom
        simp only at hroom
        omega

end Listing

theorem Host.fdReaddir_eq {h : Host} {fd : Fd} {mount : Nat} {path : List String}
    {preopen : Bool} {d : Directory} (hfd : h.fds.get? fd = some (.dir mount path preopen))
    (hdir : h.dirAt? mount path = some d) (cookie : UInt64) (limit : Nat) :
    h.fdReaddir fd cookie limit =
      .ok (dirents mount path limit cookie.toNat 0 (d.children.drop cookie.toNat)) := by
  have hnode := node_eq_ok.mpr (nodeAt?_of_dirAt? hdir)
  simp only [fdReaddir, descriptor_eq_ok.mpr hfd, hnode, bind, Except.bind]
  rfl

end Buildbox
