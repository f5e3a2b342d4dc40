import Buildbox.Proofs.Host.Atomic

/-! Calls that are refused. When a call answers no value, the whole host is as it was: trees,
descriptors, numbers, budget, output. A rename is the one call that takes something away before it
puts something down, and it never loses what it took. -/

namespace Buildbox.Host

variable {h : Host} {fd newFd : Fd} {source target : String}

theorem moved_of_rename {h' : Host} {r : Reply}
    (heff : Effect h (.pathRename fd source newFd target) r h') :
    ∃ i src j dst e, h.resolve fd source = .ok (i, src) ∧ h.resolve newFd target = .ok (j, dst) ∧
      h.nodeAt? i src = some e ∧ h'.nodeAt? j dst = some e ∧
      (¬ (i = j ∧ src = dst) → h'.nodeAt? i src = none) := by
  cases heff with
  | look hc => cases hc
  | renameSame hs ht he => exact ⟨_, _, _, _, _, hs, ht, he, he, fun hne => absurd ⟨rfl, rfl⟩ hne⟩
  | @rename _ _ _ _ i j ps qs n m d e hs ht hne hd hn hr hparent =>
    have hsource : h.nodeAt? i (ps ++ [n]) = some e := by
      rw [nodeAt?_append_singleton, hd, Option.bind_some, hn]
    obtain ⟨q, hq⟩ := Option.isSome_iff_exists.mp hparent
    have htarget : ((h.modifyDir i ps (·.erase n)).modifyDir j qs (·.insert m e)).nodeAt? j
        (qs ++ [m]) = some e := by
      rw [nodeAt?_append_singleton, dirAt?_modifyDir_self, hq, Option.map_some, Option.bind_some,
        Directory.get?_insert, if_pos rfl]
    exact ⟨i, ps ++ [n], j, qs ++ [m], e, hs, ht, hsource, htarget,
      fun _ => nodeAt?_moved hne hd hn hr⟩

theorem step_of_error {c : Call} {e : Refusal} (herr : (h.step c).1 = .error e) :
    (h.step c).2 = h := by
  obtain ⟨r, hok, -⟩ | ⟨_, -, hstay⟩ := step_cases h c
  · rw [hok] at herr
    cases herr
  · exact hstay

/-- A refused call leaves the host as it was. A rename either is refused or has its entry at the
target; once the entry is detached, the directory that is to take it cannot be missing. -/
theorem step_refused (h : Host) :
    (∀ c e, (h.step c).1 = .error e → (h.step c).2 = h) ∧
    (∀ fd source newFd target, let (answer, h') := h.step (.pathRename fd source newFd target)
      (∃ e, answer = .error (.errno e) ∧ h' = h) ∨
      ∃ i src j dst e, h.resolve fd source = .ok (i, src) ∧
        h.resolve newFd target = .ok (j, dst) ∧ h.nodeAt? i src = some e ∧
        h'.nodeAt? j dst = some e ∧ (¬ (i = j ∧ src = dst) → h'.nodeAt? i src = none)) ∧
    (∀ i src j dst p e h₁, ¬ (i = j ∧ src <+: dst) → h.parentOf j dst .inval = .ok p →
      detach i src h = .ok e h₁ → ∃ p', h₁.parentOf j dst .inval = .ok p') := by
  refine ⟨fun c e => step_of_error, fun fd source newFd target => ?_,
    fun i src j dst p e h₁ hne hparent hok => parentOf_of_detach hne hparent hok⟩
  obtain ⟨r, -, heff⟩ | ⟨e, herr, hstay⟩ := step_cases h (.pathRename fd source newFd target)
  · exact .inr (moved_of_rename heff)
  · cases e with
    | errno e => exact .inl ⟨e, herr, hstay⟩
    | overlong => exact absurd herr (step_ne_overlong rfl h)

theorem refused_renames_and_write :
    let tree : Directory := .dir "d" (.file "a" [1] .empty) (.file "f" [2] .empty)
    let mounts : MountTable := [⟨".", tree⟩, ⟨"out", .dir "d" (.file "b" [3] .empty) .empty⟩]
    let h := (fresh [] [] mounts .capture .discard 1 none).runCalls
      [.pathOpen 3 "f" {} false, .fdSeek 5 1 0]
    (h.step (.pathRename 3 "d" 3 "d/../d/e")).1 = .error (.errno .inval) ∧
      (h.step (.pathRename 3 "d" 3 "d/../d/e")).2 = h ∧
      (h.step (.pathRename 3 "d" 4 "d")).1 = .error (.errno .notempty) ∧
      (h.step (.pathRename 3 "d" 4 "d")).2 = h ∧
      (h.step (.fdWrite 5 [7, 7, 7])).1 = .error (.errno .fbig) ∧
      (h.step (.fdWrite 5 [7, 7, 7])).2 = h ∧
      ∃ d h₁ p', detach 0 ["d"] h = .ok (.dir d) h₁ ∧ h₁.parentOf 1 ["c"] .inval = .ok p' := by
  intro tree mounts h
  obtain ⟨hsame, -, hparent⟩ := step_refused h
  have hbelow : (h.step (.pathRename 3 "d" 3 "d/../d/e")).1 = .error (.errno .inval) := rfl
  have hfull : (h.step (.pathRename 3 "d" 4 "d")).1 = .error (.errno .notempty) := rfl
  have hbudget : (h.step (.fdWrite 5 [7, 7, 7])).1 = .error (.errno .fbig) := rfl
  refine ⟨hbelow, hsame _ _ hbelow, hfull, hsame _ _ hfull, hbudget, hsame _ _ hbudget, ?_⟩
  have hdetach : detach 0 ["d"] h = .ok (.dir (.file "a" [1] .empty))
      (h.modifyDir 0 [] (·.erase "d")) := by rfl
  obtain ⟨p', hp'⟩ := hparent 0 ["d"] 1 ["c"] _ _ _ (by decide)
    (by rfl : h.parentOf 1 ["c"] .inval = .ok ([], "c", .dir "d" (.file "b" [3] .empty) .empty))
    hdetach
  exact ⟨_, _, p', hdetach, hp'⟩

end Buildbox.Host
