import Buildbox.Asset.ContentCache
import Buildbox.Proofs.Disk.Files

/-! The entries of a cache as files of its directory. Names of entries and of drafts never meet;
a write concerns the draft alone, and only a move in the end brings bytes to an entry. -/

namespace Buildbox

section Names

theorem Bytes.hexDigit_mem (n : Nat) : hexDigit n ∈ "0123456789abcdef".toList := by
  rw [hexDigit, List.getD_eq_getElem?_getD]
  cases h : "0123456789abcdef".toList[n]? with
  | none => decide
  | some ch => exact List.mem_of_getElem? h

theorem Bytes.mem_hexChars {bs : Bytes} {ch : Char} (h : ch ∈ hexChars bs) :
    ch ∈ "0123456789abcdef".toList := by
  induction bs with
  | nil => cases h
  | cons b rest ih =>
    rcases List.mem_cons.mp h with rfl | h
    · exact hexDigit_mem _
    rcases List.mem_cons.mp h with rfl | h
    · exact hexDigit_mem _
    · exact ih h

theorem Bytes.utf8ByteSize_toHex (bs : Bytes) : bs.toHex.utf8ByteSize = 2 * bs.length := by
  have hall : ("0123456789abcdef".toList.all fun ch => ch.utf8Size == 1) = true := by decide
  have hdigit (n : Nat) : (hexDigit n).utf8Size = 1 :=
    eq_of_beq (List.all_eq_true.mp hall _ (hexDigit_mem n))
  unfold toHex
  induction bs with
  | nil => rfl
  | cons b rest ih =>
    simp only [hexChars, String.ofList_cons, String.utf8ByteSize_append,
      String.utf8ByteSize_singleton, hdigit, ih, List.length_cons]
    omega

theorem Sha256.mem_hexDigest {bs : Bytes} {ch : Char} (h : ch ∈ (hexDigest bs).toList) :
    ch ∈ "0123456789abcdef".toList := by
  rw [hexDigest, Bytes.toHex, String.toList_ofList] at h
  exact Bytes.mem_hexChars h

theorem Sha256.length_digest (bs : Bytes) : (digest bs).length = 32 := by
  rw [digest, List.length_flatMap]
  simp

theorem Sha256.utf8ByteSize_hexDigest (bs : Bytes) : (hexDigest bs).utf8ByteSize = 64 := by
  rw [hexDigest, Bytes.utf8ByteSize_toHex, length_digest]

end Names

namespace ContentCache

variable {c : ContentCache} {d d' : Disk} {url other tag : String} {bytes b : Bytes}

def entryName (url : String) : String :=
  Sha256.hexDigest (Utf8.encode url)

def draftName (url tag : String) : String :=
  entryName url ++ ".tmp-" ++ tag

/-- Holds when SHA-256 tells the names apart. -/
def ToldApart (names : List String) : Prop :=
  ∀ url ∈ names, ∀ other ∈ names, entryName url = entryName other → url = other

theorem toldApart_singleton (url : String) : ToldApart [url] := by
  intro u hu v hv _
  rw [List.mem_singleton.mp hu, List.mem_singleton.mp hv]

section Places

def entryPlace (c : ContentCache) (url : String) : List String :=
  Disk.place (c.entryPath url)

def draftPlace (c : ContentCache) (url tag : String) : List String :=
  Disk.place (c.draftPath url tag)

def entryAt? (c : ContentCache) (d : Disk) (url : String) : Option Bytes :=
  d.fileAt? (c.entryPlace url)

theorem entryName_ne_blank (url : String) : entryName url ≠ "" := by
  intro h
  have hsize : (entryName url).utf8ByteSize = 64 := Sha256.utf8ByteSize_hexDigest _
  rw [h] at hsize
  cases hsize

theorem not_mem_entryName {ch : Char} (h : ch ∉ "0123456789abcdef".toList) (url : String) :
    ch ∉ (entryName url).toList :=
  fun hmem => h (Sha256.mem_hexDigest hmem)

theorem isName_entryName (url : String) : Path.IsName (entryName url) := by
  have hdot : '.' ∉ (entryName url).toList := not_mem_entryName (by decide) url
  refine ⟨entryName_ne_blank url, not_mem_entryName (by decide) url, ?_, ?_⟩
  · intro h
    rw [h] at hdot
    exact hdot (by decide)
  · intro h
    rw [h] at hdot
    exact hdot (by decide)

theorem draftName_ne_entryName (url tag other : String) : draftName url tag ≠ entryName other := by
  intro h
  have hdot : '.' ∈ (draftName url tag).toList := by simp [draftName]
  rw [h] at hdot
  exact not_mem_entryName (by decide) other hdot

theorem not_mem_draftName {ch : Char} (hdigit : ch ∉ "0123456789abcdef".toList)
    (hmark : ch ∉ ".tmp-".toList) (htag : ch ∉ tag.toList) (url : String) :
    ch ∉ (draftName url tag).toList := by
  rw [draftName, String.toList_append, String.toList_append, List.mem_append, List.mem_append]
  exact not_or.mpr ⟨not_or.mpr ⟨not_mem_entryName hdigit url, hmark⟩, htag⟩

theorem utf8ByteSize_draftName (url tag : String) :
    (draftName url tag).utf8ByteSize = 69 + tag.utf8ByteSize := by
  have hentry : (entryName url).utf8ByteSize = 64 := Sha256.utf8ByteSize_hexDigest _
  have hmark : ".tmp-".utf8ByteSize = 5 := by decide
  rw [draftName, String.utf8ByteSize_append, String.utf8ByteSize_append, hentry, hmark]

theorem isName_draftName (htag : '/' ∉ tag.toList) (url : String) :
    Path.IsName (draftName url tag) := by
  have hlong : 2 < (draftName url tag).utf8ByteSize := by
    rw [utf8ByteSize_draftName]
    omega
  refine ⟨?_, not_mem_draftName (by decide) (by decide) htag url, ?_, ?_⟩
  · intro h
    rw [h] at hlong
    exact absurd hlong (by decide)
  · intro h
    rw [h] at hlong
    exact absurd hlong (by decide)
  · intro h
    rw [h] at hlong
    exact absurd hlong (by decide)

theorem draftPath_eq (c : ContentCache) (url tag : String) :
    c.draftPath url tag = Disk.joinPath c.dir (draftName url tag) := by
  have hname := isName_entryName url
  rw [draftName, String.append_assoc, Disk.joinPath_append hname, ← String.append_assoc]
  rfl

theorem entryPlace_eq (c : ContentCache) (url : String) :
    c.entryPlace url = Disk.place c.dir ++ [entryName url] :=
  Disk.place_joinPath (isName_entryName url) c.dir

theorem draftPlace_eq (htag : '/' ∉ tag.toList) (c : ContentCache) (url : String) :
    c.draftPlace url tag = Disk.place c.dir ++ [draftName url tag] := by
  rw [draftPlace, draftPath_eq]
  exact Disk.place_joinPath (isName_draftName htag url) c.dir

theorem entryPlace_inj : c.entryPlace url = c.entryPlace other ↔ entryName url = entryName other := by
  rw [entryPlace_eq, entryPlace_eq]
  simp

theorem entryAt?_of_no_dir (h : d.dirAt? (Disk.place c.dir) = none) (url : String) :
    c.entryAt? d url = none := by
  rw [Directory.dirAt?_eq_at?] at h
  rw [entryAt?, entryPlace_eq, Disk.fileAt?, Entry.at?_append]
  cases hat : (Entry.dir d).at? (Disk.place c.dir) with
  | none => rfl
  | some e =>
    cases e with
    | file bytes => rfl
    | dir sub =>
      rw [hat] at h
      cases h

theorem draftPlace_ne_entryPlace (htag : '/' ∉ tag.toList) (c : ContentCache)
    (url other : String) : c.draftPlace url tag ≠ c.entryPlace other := by
  rw [draftPlace_eq htag, entryPlace_eq]
  intro h
  exact draftName_ne_entryName url tag other (by simpa using h)

theorem draftPlace_ne {tag' : String} (htag : '/' ∉ tag.toList) (htag' : '/' ∉ tag'.toList)
    (h : c.draftPath url tag ≠ c.draftPath other tag') :
    c.draftPlace url tag ≠ c.draftPlace other tag' := by
  rw [draftPath_eq, draftPath_eq] at h
  rw [draftPlace_eq htag, draftPlace_eq htag']
  intro heq
  have hname : draftName url tag = draftName other tag' := by simpa using heq
  exact h (congrArg (Disk.joinPath c.dir) hname)

theorem get?_eq_some :
    c.get? d url = some b ↔ Disk.Follows d (c.entryPath url) ∧ c.entryAt? d url = some b := by
  have hread : c.get? d url = some b ↔ Disk.readFile d (c.entryPath url) = .ok b := by
    unfold get?
    cases Disk.readFile d (c.entryPath url) <;> simp [Except.toOption]
  exact hread.trans Disk.readFile_eq_ok

theorem get?_of_no_dir (h : d.dirAt? (Disk.place c.dir) = none) (url : String) :
    c.get? d url = none := by
  cases hget : c.get? d url with
  | none => rfl
  | some b => cases (entryAt?_of_no_dir h url).symm.trans (get?_eq_some.mp hget).2

end Places

section Steps

open Disk (Grows Turns KeepsDirs)

theorem apply_write_draft (htag : '/' ∉ tag.toList) {answer : Except Disk.Fault Unit}
    (h : DiskStep.apply d (.write (c.draftPath url tag) bytes) = (answer, d')) :
    answer = .ok () ∧ Turns d d' (c.draftPlace url tag) (some bytes) ∨
      (∃ fault, answer = .error fault) ∧ d' = d := by
  rw [DiskStep.apply] at h
  rw [draftPlace]
  rw [draftPath_eq] at h ⊢
  cases hw : Disk.writeFile d (Disk.joinPath c.dir (draftName url tag)) bytes with
  | error fault =>
    rw [hw] at h
    cases h
    exact .inr ⟨⟨fault, rfl⟩, rfl⟩
  | ok mid =>
    rw [hw] at h
    cases h
    exact .inl ⟨rfl, Disk.turns_writeFile (isName_draftName htag url) hw⟩

structure Publishes (c : ContentCache) (d d' : Disk) (url tag : String) (bytes : Bytes) : Prop where
  draft : d.fileAt? (c.draftPlace url tag) = some bytes
  entry : c.get? d' url = some bytes
  others : ∀ q, q ≠ c.entryPlace url → q ≠ c.draftPlace url tag → d'.fileAt? q = d.fileAt? q
  gone : d'.fileAt? (c.draftPlace url tag) = none
  dirs : KeepsDirs d d'

theorem apply_rename_draft (htag : '/' ∉ tag.toList) {answer : Except Disk.Fault Unit}
    (h : DiskStep.apply d (.rename (c.draftPath url tag) (c.entryPath url)) = (answer, d')) :
    answer = .ok () ∧ (∃ bytes, c.Publishes d d' url tag bytes) ∨
      (∃ fault, answer = .error fault) ∧ d' = d := by
  rw [DiskStep.apply] at h
  cases hr : Disk.renameFile d (c.draftPath url tag) (c.entryPath url) with
  | error fault =>
    rw [hr] at h
    cases h
    exact .inr ⟨⟨fault, rfl⟩, rfl⟩
  | ok moved =>
    rw [hr] at h
    cases h
    refine .inl ⟨rfl, ?_⟩
    have hne := draftPlace_ne_entryPlace htag c url url
    rw [draftPath_eq] at hr
    obtain ⟨bytes, mid, hread, hwrite, hgone⟩ := Disk.renameFile_joinPath
      (isName_draftName htag url) (isName_entryName url) (draftName_ne_entryName url tag url) hr
    rw [← draftPath_eq] at hread hgone
    have hread := Disk.readFile_eq_ok.mp hread
    have hwritten := Disk.turns_writeFile (isName_entryName url) hwrite
    have hfound := Disk.readFile_eq_ok.mp (Disk.readFile_writeFile (isName_entryName url) hwrite)
    refine ⟨bytes, hread.2, get?_eq_some.mpr ⟨hgone.dirs.follows hfound.1, ?_⟩, ?_, hgone.file,
      hwritten.dirs.trans hgone.dirs⟩
    · exact (hgone.others _ hne.symm).trans hfound.2
    · intro q hentry hdraft
      exact (hgone.others q hdraft).trans (hwritten.others q hentry)

structure Stores (c : ContentCache) (d d' : Disk) (url tag : String) (bytes : Bytes) : Prop where
  others : ∀ q, q ≠ c.entryPlace url → q ≠ c.draftPlace url tag → d'.fileAt? q = d.fileAt? q
  entry : c.entryAt? d' url = c.entryAt? d url ∨ c.entryAt? d' url = some bytes
  dirs : KeepsDirs d d'

theorem Stores.of_grows (h : Grows d d') : c.Stores d d' url tag bytes :=
  ⟨fun q _ _ => h.files q, .inl (h.files _), h.dirs⟩

theorem Stores.trans {d'' : Disk} (h : c.Stores d d' url tag bytes)
    (h' : c.Stores d' d'' url tag bytes) : c.Stores d d'' url tag bytes where
  others q he hq := (h'.others q he hq).trans (h.others q he hq)
  entry := by
    rcases h'.entry with heq | heq
    · exact h.entry.imp heq.trans heq.trans
    · exact .inr heq
  dirs := h.dirs.trans h'.dirs

theorem Stores.of_draft (htag : '/' ∉ tag.toList) {written : Option Bytes}
    (h : Turns d d' (c.draftPlace url tag) written) : c.Stores d d' url tag bytes :=
  ⟨fun q _ hq => h.others q hq,
    .inl (h.others _ (draftPlace_ne_entryPlace htag c url url).symm), h.dirs⟩

theorem cases_of_suffix_putSteps {step : DiskStep} {rest : List DiskStep}
    (h : step :: rest <:+ c.putSteps url tag bytes) :
    step = .createDirs c.dir ∧ rest.length = 2 ∨
      step = .write (c.draftPath url tag) bytes ∧ rest.length = 1 ∨
        step = .rename (c.draftPath url tag) (c.entryPath url) ∧ rest.length = 0 := by
  unfold putSteps at h
  rcases List.suffix_cons_iff.mp h with h | h
  · cases h
    exact .inl ⟨rfl, rfl⟩
  rcases List.suffix_cons_iff.mp h with h | h
  · cases h
    exact .inr (.inl ⟨rfl, rfl⟩)
  rcases List.suffix_cons_iff.mp h with h | h
  · cases h
    exact .inr (.inr ⟨rfl, rfl⟩)
  · exact absurd (List.suffix_nil.mp h) (List.cons_ne_nil step rest)

theorem apply_spec (htag : '/' ∉ tag.toList) {step : DiskStep} {rest : List DiskStep}
    (hsteps : step :: rest <:+ c.putSteps url tag bytes)
    (hdraft : rest.length = 0 → d.fileAt? (c.draftPlace url tag) = some bytes)
    {answer : Except Disk.Fault Unit} (h : step.apply d = (answer, d')) :
    c.Stores d d' url tag bytes ∧ (answer = .ok () →
      (rest.length = 1 → d'.fileAt? (c.draftPlace url tag) = some bytes) ∧
        (rest.length = 0 → c.get? d' url = some bytes)) := by
  rcases cases_of_suffix_putSteps hsteps with ⟨rfl, hrest⟩ | ⟨rfl, hrest⟩ | ⟨rfl, hrest⟩
  · have hgrows := Disk.grows_createDirs d c.dir
    rw [show (Disk.createDirs d c.dir).2 = d' from congrArg Prod.snd h] at hgrows
    exact ⟨.of_grows hgrows, fun _ => ⟨fun hone => by omega, fun hzero => by omega⟩⟩
  · rcases apply_write_draft htag h with ⟨-, hturns⟩ | ⟨⟨fault, rfl⟩, rfl⟩
    · exact ⟨.of_draft htag hturns, fun _ => ⟨fun _ => hturns.file, fun hzero => by omega⟩⟩
    · exact ⟨.of_grows (.refl d'), nofun⟩
  · rcases apply_rename_draft htag h with ⟨-, b, hmoved⟩ | ⟨⟨fault, rfl⟩, rfl⟩
    · obtain rfl : bytes = b := Option.some.inj ((hdraft hrest).symm.trans hmoved.draft)
      refine ⟨⟨hmoved.others, .inr (get?_eq_some.mp hmoved.entry).2, hmoved.dirs⟩, fun _ => ?_⟩
      exact ⟨fun hone => by omega, fun _ => hmoved.entry⟩
    · exact ⟨.of_grows (.refl d'), nofun⟩

theorem runSteps_cons_eq {step : DiskStep} {rest : List DiskStep}
    {answer : Except Disk.Fault Unit} (h : runSteps (step :: rest) d = (answer, d')) :
    (∃ mid, step.apply d = (.ok (), mid) ∧ runSteps rest mid = (answer, d')) ∨
      step.apply d = (answer, d') ∧ ∃ fault, answer = .error fault := by
  rw [runSteps] at h
  split at h
  · next mid hstep => exact .inl ⟨mid, hstep, h⟩
  · next failed hfailed =>
    refine .inr ⟨h, ?_⟩
    cases answer with
    | ok => exact absurd h (hfailed d')
    | error fault => exact ⟨fault, rfl⟩

theorem runSteps_spec (htag : '/' ∉ tag.toList) {left : List DiskStep}
    (hsteps : left <:+ c.putSteps url tag bytes)
    (hdraft : left.length = 1 → d.fileAt? (c.draftPlace url tag) = some bytes)
    {answer : Except Disk.Fault Unit} (h : runSteps left d = (answer, d')) :
    c.Stores d d' url tag bytes ∧
      (answer = .ok () → left ≠ [] → c.get? d' url = some bytes) := by
  induction left generalizing d with
  | nil =>
    cases h
    exact ⟨.of_grows (.refl _), fun _ hne => absurd rfl hne⟩
  | cons step rest ih =>
    have hlast (hzero : rest.length = 0) : d.fileAt? (c.draftPlace url tag) = some bytes :=
      hdraft (congrArg (· + 1) hzero)
    rcases runSteps_cons_eq h with ⟨mid, hstep, hrun⟩ | ⟨hstep, fault, rfl⟩
    · obtain ⟨hstores, hok⟩ := apply_spec htag hsteps hlast hstep
      obtain ⟨hdrafted, hread⟩ := hok rfl
      obtain ⟨hrest, hdone⟩ := ih ((List.suffix_cons step rest).trans hsteps) hdrafted hrun
      refine ⟨hstores.trans hrest, fun hanswer _ => ?_⟩
      -- It is the last step that brings the entry.
      cases rest with
      | nil =>
        cases hrun
        exact hread rfl
      | cons next rest => exact hdone hanswer (List.cons_ne_nil next rest)
    · exact ⟨(apply_spec htag hsteps hlast hstep).1, nofun⟩

theorem Stores.entryAt? (htag : '/' ∉ tag.toList) (h : c.Stores d d' url tag bytes)
    (other : String) : c.entryAt? d' other = c.entryAt? d other ∨
      entryName other = entryName url ∧ c.entryAt? d' other = some bytes := by
  by_cases hname : entryName other = entryName url
  · have hplace : c.entryPlace other = c.entryPlace url := entryPlace_inj.mpr hname
    unfold ContentCache.entryAt?
    rw [hplace]
    exact h.entry.imp id fun hentry => ⟨hname, hentry⟩
  · refine .inl (h.others _ (fun heq => hname (entryPlace_inj.mp heq)) ?_)
    exact (draftPlace_ne_entryPlace htag c url other).symm

theorem stores_put (htag : '/' ∉ tag.toList) (c : ContentCache) (url : String) (bytes : Bytes)
    (d : Disk) : c.Stores d (c.put url tag bytes d).2 url tag bytes :=
  (runSteps_spec htag List.suffix_rfl nofun rfl).1

theorem get?_put (htag : '/' ∉ tag.toList) (h : (c.put url tag bytes d).1 = .ok ()) :
    c.get? (c.put url tag bytes d).2 url = some bytes :=
  (runSteps_spec htag List.suffix_rfl nofun rfl).2 h (List.cons_ne_nil _ _)

theorem put_of_free (htag : '/' ∉ tag.toList) (hzero : '\x00' ∉ tag.toList)
    (hmade : Disk.createDirs d c.dir = (.ok (), d')) (hpath : Disk.Follows d' c.dir)
    {parent : Directory} (hdir : d'.dirAt? (Disk.place c.dir) = some parent)
    (hentry : ∀ s, parent.get? (entryName url) ≠ some (.dir s))
    (hdraft : ∀ s, parent.get? (draftName url tag) ≠ some (.dir s))
    (hlong : c.dir.utf8ByteSize + 70 + tag.utf8ByteSize ≤ Disk.maxPath)
    (hshort : 69 + tag.utf8ByteSize ≤ Disk.maxName) : (c.put url tag bytes d).1 = .ok () := by
  have hentryName := isName_entryName url
  have hdraftName := isName_draftName htag url
  have hentrySize : (entryName url).utf8ByteSize = 64 := Sha256.utf8ByteSize_hexDigest _
  have hdraftSize := utf8ByteSize_draftName url tag
  have hentryZero : '\x00' ∉ (entryName url).toList := not_mem_entryName (by decide) url
  have hdraftZero : '\x00' ∉ (draftName url tag).toList :=
    not_mem_draftName (by decide) (by decide) hzero url
  have hsome : (d'.dirAt? (Disk.place c.dir)).isSome :=
    Option.isSome_iff_exists.mpr ⟨parent, hdir⟩
  have hfollowsDraft := Disk.follows_of_dir hdraftName hdraftZero hpath hsome (by omega) (by omega)
  have hfollowsEntry := Disk.follows_of_dir hentryName hentryZero hpath hsome (by omega) (by omega)
  obtain ⟨d₂, hd₂⟩ : ∃ d₂, d₂ = d'.modifyDirAt (·.insert (draftName url tag) (.file bytes))
      (Disk.place c.dir) := ⟨_, rfl⟩
  have hwrite : Disk.writeFile d' (c.draftPath url tag) bytes = .ok d₂ := by
    rw [draftPath_eq]
    exact (Disk.writeFile_joinPath_eq_ok hdraftName).mpr ⟨hfollowsDraft, parent, hdir, hdraft, hd₂⟩
  have hread : Disk.readFile d₂ (c.draftPath url tag) = .ok bytes := by
    rw [draftPath_eq] at hwrite ⊢
    exact Disk.readFile_writeFile hdraftName hwrite
  have hdir₂ : d₂.dirAt? (Disk.place c.dir) =
      some (parent.insert (draftName url tag) (.file bytes)) := by
    rw [hd₂, Directory.dirAt?_modifyDirAt_self, hdir]
    rfl
  have hmove : ∃ d₃, Disk.renameFile d₂ (c.draftPath url tag) (c.entryPath url) = .ok d₃ := by
    rw [draftPath_eq] at hwrite hread ⊢
    have hturns := Disk.turns_writeFile hdraftName hwrite
    refine Disk.exists_renameFile hdraftName hread ((Disk.writeFile_joinPath_eq_ok hentryName).mpr
      ⟨hturns.dirs.follows hfollowsEntry, _, hdir₂, fun s => ?_, rfl⟩)
    -- The draft that was just written is not in the way of the entry.
    rw [Directory.get?_insert, if_neg (draftName_ne_entryName url tag url)]
    exact hentry s
  obtain ⟨d₃, hmove⟩ := hmove
  unfold put putSteps
  simp only [runSteps, DiskStep.apply, hmade, hwrite, hmove, DiskStep.apply.keep]

theorem isSome_get?_put (htag : '/' ∉ tag.toList) (url : String) (bytes : Bytes)
    (hsome : (c.get? d other).isSome) : (c.get? (c.put url tag bytes d).2 other).isSome := by
  obtain ⟨b, hb⟩ := Option.isSome_iff_exists.mp hsome
  obtain ⟨hfollows, hentry⟩ := get?_eq_some.mp hb
  have hstores := stores_put htag c url bytes d
  have hfollows := hstores.dirs.follows hfollows
  rcases hstores.entryAt? htag other with heq | ⟨-, heq⟩
  · exact Option.isSome_iff_exists.mpr ⟨b, get?_eq_some.mpr ⟨hfollows, heq.trans hentry⟩⟩
  · exact Option.isSome_iff_exists.mpr ⟨bytes, get?_eq_some.mpr ⟨hfollows, heq⟩⟩

end Steps

end ContentCache

end Buildbox
