import Buildbox.Proofs.Host.Atomic
import Buildbox.Proofs.Tree.Placing

/-! Where files go. A call that arranges the trees moves a file, cuts it, takes it away or leaves it
alone, and after any number of such calls it stands where they took it. -/

namespace Buildbox.Host

/-- A file by the place where it stands, with its bytes. -/
structure Standing where
  place : Nat × List String
  bytes : Bytes
  deriving DecidableEq, Repr

def Stands (h : Host) (f : Standing) : Prop :=
  h.nodeAt? f.place.1 f.place.2 = some (.file f.bytes)

/-- Calls that open, make, move and unlink, and write nothing through a descriptor. -/
def Call.arranges : Call → Bool
  | .pathRename .. | .pathUnlinkFile .. | .pathCreateDirectory .. | .pathOpen .. => true
  | _ => false

def Standing.moved (f : Standing) (source target : Nat × List String) : Option Standing :=
  if source = target then some f
  else if target = f.place then none
  else if source.1 = f.place.1 ∧ source.2 <+: f.place.2 then
    some { f with place := (target.1, target.2 ++ f.place.2.drop source.2.length) }
  else some f

def carriedOver (h : Host) (f : Standing) : Call → Option Standing
  | .pathOpen fd path flags _ =>
    if flags.truncate ∧ (h.resolve fd path).toOption = some f.place then some { f with bytes := [] }
    else some f
  | .pathUnlinkFile fd path =>
    if (h.resolve fd path).toOption = some f.place then none else some f
  | .pathRename fd source newFd target =>
    match h.resolve fd source, h.resolve newFd target with
    | .ok source, .ok target => f.moved source target
    | _, _ => some f
  | _ => some f

def carry (h : Host) (c : Call) (f : Standing) : Option Standing :=
  match (h.step c).1 with
  | .ok _ => h.carriedOver f c
  | .error _ => some f

def carryAll (h : Host) : List Call → Standing → Option Standing
  | [], f => some f
  | c :: calls, f => (h.carry c f).bind ((h.step c).2.carryAll calls)

section Places

variable {h : Host} {i j : Nat} {ps qs path rest : List String} {n : String} {d : Directory}
  {e : Entry} {b bytes : Bytes} {f : Directory → Directory}

theorem nodeAt?_eq_at? (h : Host) (i : Nat) (path : List String) :
    h.nodeAt? i path = h.mounts[i]?.bind fun m => (Entry.dir m.root).at? path := by
  unfold nodeAt?
  refine congrArg _ (funext fun m => ?_)
  split
  · next hnil =>
    rw [hnil]
    rfl
  · next hne => exact Directory.lookup_eq_at? m.root hne

theorem nodeAt?_append (h : Host) (i : Nat) (path rest : List String) :
    h.nodeAt? i (path ++ rest) = (h.nodeAt? i path).bind (·.at? rest) := by
  rw [nodeAt?_eq_at?, nodeAt?_eq_at?, Option.bind_assoc]
  exact congrArg _ (funext fun m => Entry.at?_append ..)

theorem nodeAt?_file_of_modifyDir (hf : ∀ sub m, m ≠ n → (f sub).get? m = sub.get? m)
    (hd : h.dirAt? i ps = some d) (hb : h.nodeAt? j qs = some (.file b))
    (hne : ¬ (i = j ∧ ps ++ [n] <+: qs)) :
    (h.modifyDir i ps f).nodeAt? j qs = some (.file b) := by
  have hdir : (h.dirAt? i ps).isSome := by
    rw [hd]
    rfl
  rw [← kindAt?_eq_file, kindAt?_modifyDir hf hdir hne, kindAt?_eq_file, hb]

theorem eq_of_below_name (hd : h.dirAt? i ps = some d) (hn : ∀ sub, d.get? n ≠ some (.dir sub))
    (hb : h.nodeAt? i qs = some (.file b)) (hpre : ps ++ [n] <+: qs) :
    qs = ps ++ [n] ∧ d.get? n = some (.file b) := by
  obtain ⟨rest, rfl⟩ := hpre
  rw [nodeAt?_append, nodeAt?_append_singleton, hd, Option.bind_some] at hb
  cases he : d.get? n with
  | none =>
    rw [he] at hb
    cases hb
  | some e =>
    rw [he, Option.bind_some] at hb
    cases e with
    | dir sub => exact absurd he (hn sub)
    | file bytes =>
      cases rest with
      | nil =>
        obtain rfl := Entry.file.inj (Option.some.inj hb)
        exact ⟨List.append_nil _, rfl⟩
      | cons => cases hb

theorem eq_nil_of_checkReplace {x : Entry} (hr : h.checkReplace e i path = .ok ())
    (hx : h.nodeAt? i (path ++ rest) = some x) : rest = [] := by
  rw [nodeAt?_append] at hx
  obtain ⟨found, hfound, hx⟩ := Option.bind_eq_some_iff.mp hx
  cases rest with
  | nil => rfl
  | cons r rest =>
    unfold checkReplace at hr
    rw [existing?_eq_ok_some.mpr hfound] at hr
    cases found with
    | file => cases hx
    | dir sub =>
      cases sub with
      | empty => cases hx
      | file | dir => cases e <;> cases hr

theorem nodeAt?_insert (hd : h.dirAt? i ps = some d) (n : String) (e : Entry) :
    (h.modifyDir i ps (·.insert n e)).nodeAt? i (ps ++ [n]) = some e := by
  rw [nodeAt?_append_singleton, dirAt?_modifyDir_self, hd, Option.map_some, Option.bind_some,
    Directory.get?_insert, if_pos rfl]

end Places

section Calls

variable {h h' : Host} {i j : Nat} {ps qs segments : List String} {n m : String} {d : Directory}
  {e : Entry} {f g : Standing} {c : Call} {r : Reply} {bytes written : Bytes}

theorem stands_of_ne (hf : h.Stands f) {change : Directory → Directory}
    (hchange : ∀ sub m, m ≠ n → (change sub).get? m = sub.get? m) (hd : h.dirAt? i ps = some d)
    (hn : ∀ sub, d.get? n ≠ some (.dir sub)) (hne : (i, ps ++ [n]) ≠ f.place) :
    (h.modifyDir i ps change).Stands f := by
  refine nodeAt?_file_of_modifyDir hchange hd hf ?_
  rintro ⟨rfl, hpre⟩
  exact hne (Prod.ext rfl (eq_of_below_name hd hn hf hpre).1.symm)

theorem nodeAt?_setFile (hb : h.nodeAt? i segments = some (.file bytes)) (written : Bytes) :
    (h.setFile i segments written).nodeAt? i segments = some (.file written) := by
  obtain ⟨ps, n, d, rfl, hd, hn⟩ := exists_of_nodeAt?_file hb
  rw [setFile_eq_modifyDir hd hn]
  exact nodeAt?_insert hd n _

theorem kindAt?_setFile_of_ne (hb : h.nodeAt? i segments = some (.file bytes))
    (hne : (i, segments) ≠ (j, qs)) :
    (h.setFile i segments written).kindAt? j qs = h.kindAt? j qs := by
  by_cases hbelow : i = j ∧ segments <+: qs
  -- Below a file there is nothing, before and after.
  · obtain ⟨rfl, rest, rfl⟩ := hbelow
    rw [kindAt?, kindAt?, nodeAt?_append, nodeAt?_setFile hb, nodeAt?_append, hb]
    cases rest with
    | nil => exact absurd (congrArg (Prod.mk i) (List.append_nil segments).symm) hne
    | cons => rfl
  · obtain ⟨ps, n, d, rfl, hd, hn⟩ := exists_of_nodeAt?_file hb
    rw [setFile_eq_modifyDir hd hn]
    exact kindAt?_modifyDir (get?_insert_of_ne n _) (by rw [hd]; rfl) hbelow

theorem stands_setFile_iff (hb : h.nodeAt? i segments = some (.file bytes))
    (hne : (i, segments) ≠ f.place) : (h.setFile i segments written).Stands f ↔ h.Stands f := by
  rw [Stands, Stands, ← kindAt?_eq_file, ← kindAt?_eq_file, kindAt?_setFile_of_ne hb hne]

theorem ne_place (hd : h.dirAt? i ps = some d) (hn : d.get? n = none) (hf : h.Stands f) :
    (i, ps ++ [n]) ≠ f.place := by
  intro heq
  rw [Stands, ← heq, nodeAt?_append_singleton, hd, Option.bind_some, hn] at hf
  cases hf

theorem moved_eq_some {source target : Nat × List String}
    (hne : ¬ (source.1 = target.1 ∧ source.2 <+: target.2)) (hg : f.moved source target = some g) :
    target ≠ f.place ∧
      ((∃ rest, f.place = (source.1, source.2 ++ rest) ∧
        g = { f with place := (target.1, target.2 ++ rest) }) ∨
      ¬ (source.1 = f.place.1 ∧ source.2 <+: f.place.2) ∧ g = f) := by
  obtain ⟨⟨k, path⟩, bytes⟩ := f
  have hplaces : source ≠ target := by
    rintro rfl
    exact hne ⟨rfl, List.prefix_rfl⟩
  unfold Standing.moved at hg
  rw [if_neg hplaces] at hg
  split at hg
  · cases hg
  next hother =>
  refine ⟨hother, ?_⟩
  split at hg
  · next hbelow =>
    obtain ⟨rfl, rest, rfl⟩ := hbelow
    cases hg
    rw [List.drop_left]
    exact .inl ⟨rest, rfl, rfl⟩
  · next hapart => exact .inr ⟨hapart, (Option.some.inj hg).symm⟩

section Moves

variable (hne : ¬ (i = j ∧ ps ++ [n] <+: qs ++ [m])) (hr : h.checkReplace e j (qs ++ [m]) = .ok ())
include hne hr

theorem stands_moved (hf : h.Stands f) (hd : h.dirAt? i ps = some d) (hn : d.get? n = some e)
    (hparent : ((h.modifyDir i ps (·.erase n)).dirAt? j qs).isSome)
    (hg : f.moved (i, ps ++ [n]) (j, qs ++ [m]) = some g) :
    ((h.modifyDir i ps (·.erase n)).modifyDir j qs (·.insert m e)).Stands g := by
  obtain ⟨q, hq⟩ := Option.isSome_iff_exists.mp hparent
  obtain ⟨hother, ⟨rest, hplace, rfl⟩ | ⟨hapart, rfl⟩⟩ := moved_eq_some hne hg
  -- What goes along is found below the target as it was found below the source.
  · rw [Stands, hplace, nodeAt?_append, nodeAt?_append_singleton, hd, Option.bind_some, hn,
      Option.bind_some] at hf
    rw [Stands, nodeAt?_append, nodeAt?_insert hq, Option.bind_some]
    exact hf
  · have hdetached : (h.modifyDir i ps (·.erase n)).Stands g :=
      nodeAt?_file_of_modifyDir (get?_erase_of_ne n) hd hf hapart
    refine nodeAt?_file_of_modifyDir (get?_insert_of_ne m e) hq hdetached ?_
    rintro ⟨hj, rest, hpath⟩
    rw [Stands, ← hj, ← hpath] at hf
    obtain rfl := eq_nil_of_checkReplace hr hf
    exact hother (Prod.ext hj ((List.append_nil _).symm.trans hpath))

end Moves

theorem resizeWithin_zero {budget left : UInt64}
    (hr : resizeWithin bytes 0 budget = .ok (written, left)) : written = [] := by
  unfold resizeWithin at hr
  rw [if_neg UInt64.not_lt_zero] at hr
  cases hr
  rw [resize, UInt64.toNat_zero, List.take_zero, Nat.zero_sub]
  rfl

theorem stands_carry (hc : c.arranges = true) (hf : h.Stands f) (hg : h.carry c f = some g) :
    (h.step c).2.Stands g := by
  unfold carry at hg
  obtain ⟨r, hok, heff⟩ | ⟨e, herr, hstay⟩ := step_cases h c
  · rw [hok] at hg
    generalize (h.step c).2 = h' at heff
    cases heff with
    | openDir hp he hx ht | openFile hp he hx _ ht =>
      simp only [carriedOver, ht, Bool.false_eq_true, false_and, if_false] at hg
      cases hg
      exact hf
    | @openCut _ _ _ _ i segments _ resized _ hp he hx _ ht hr =>
      simp only [carriedOver, ht, hp, true_and] at hg
      split at hg
      · next hsame =>
        have hplace : (i, segments) = f.place := Option.some.inj hsame
        cases hg
        obtain rfl := resizeWithin_zero hr
        have hcut := nodeAt?_setFile he []
        rw [Stands, ← hplace]
        exact hcut
      · next hother =>
        cases hg
        exact (stands_setFile_iff he fun hplace => hother (congrArg some hplace)).mpr hf
    | create hp hd hn =>
      have hne := ne_place hd hn hf
      simp only [carriedOver, hp] at hg
      rw [if_neg fun hcut => hne (Option.some.inj hcut.2)] at hg
      cases hg
      exact stands_of_ne hf (get?_insert_of_ne _ _) hd (by simp [hn]) hne
    | createDirectory hp hd hn =>
      cases hg
      exact stands_of_ne hf (get?_insert_of_ne _ _) hd (by simp [hn]) (ne_place hd hn hf)
    | unlinkFile hp hd hn =>
      simp only [carriedOver, hp] at hg
      split at hg
      · cases hg
      · next hother =>
        cases hg
        exact stands_of_ne hf (get?_erase_of_ne _) hd (by simp [hn]) fun hplace =>
          hother (congrArg some hplace)
    | renameSame hp hq =>
      simp only [carriedOver, hp, hq, Standing.moved, if_true] at hg
      cases hg
      exact hf
    | rename hp hq hne hd hn hr hparent =>
      simp only [carriedOver, hp, hq] at hg
      exact stands_moved hne hr hf hd hn hparent hg
    | look hc' => cases c <;> cases hc <;> cases hc'
    | output | write | pwrite | readInput | read | seek | close | renumber | setAppend
    | noAppend | setSize | removeDirectory | random | poll => cases hc
  · rw [herr] at hg
    cases hg
    rw [hstay]
    exact hf

theorem stands_carryAll {calls : List Call} (hcalls : ∀ c ∈ calls, c.arranges = true)
    (hf : h.Stands f) (hg : h.carryAll calls f = some g) : (h.runCalls calls).Stands g := by
  induction calls generalizing h f with
  | nil =>
    cases hg
    exact hf
  | cons c calls ih =>
    obtain ⟨hc, hcalls⟩ := List.forall_mem_cons.mp hcalls
    obtain ⟨f', hf', hg⟩ := Option.bind_eq_some_iff.mp hg
    exact ih hcalls (stands_carry hc hf hf') hg

end Calls

end Buildbox.Host
