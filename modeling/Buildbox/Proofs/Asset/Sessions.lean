import Buildbox.Asset.Sessions
import Buildbox.Proofs.Asset.Entries
import Mathlib.Data.List.Induction

/-! Sessions over one cache answer what a source answered for the same name, whatever becomes of
the cache in between, and while nothing happens to it each name is fetched once. -/

namespace Buildbox

namespace ContentCache

variable {σ : Type} [HasDisk σ] {c : ContentCache} {source : Fetch σ} {url : String} {s s' : σ}
  {bytes : Bytes} {f : Failure}

theorem fetch_eq (c : ContentCache) (source : Fetch σ) (url : String) (s : σ) :
    fetch (some c) source url s =
      match c.get? (HasDisk.disk s) url with
      | some bytes => .ok bytes s
      | none =>
        match source url s with
        | .ok bytes s' =>
          .ok bytes (HasDisk.withDisk s' (c.put url "0" bytes (HasDisk.disk s')).2)
        | .error f s' => .error f s' := by
  have hget {β : Type} (next : σ → EStateM Failure σ β) : (get >>= next) s = next s s := rfl
  unfold fetch
  dsimp only
  rw [hget]
  cases c.get? (HasDisk.disk s) url with
  | some bytes => rfl
  | none =>
    change EStateM.bind (source url) _ s = _
    unfold EStateM.bind
    cases source url s <;> rfl

theorem fetch_of_found (h : c.get? (HasDisk.disk s) url = some bytes) :
    fetch (some c) source url s = .ok bytes s := by
  rw [fetch_eq, h]

theorem fetch_of_failed (h : c.get? (HasDisk.disk s) url = none)
    (hf : source url s = .error f s') : fetch (some c) source url s = .error f s' := by
  rw [fetch_eq, h, hf]

theorem fetch_of_fetched (h : c.get? (HasDisk.disk s) url = none)
    (hb : source url s = .ok bytes s') : fetch (some c) source url s =
      .ok bytes (HasDisk.withDisk s' (c.put url "0" bytes (HasDisk.disk s')).2) := by
  rw [fetch_eq, h, hb]

theorem fetch_congr {source' : Fetch σ} (h : source url s = source' url s) :
    fetch (some c) source url s = fetch (some c) source' url s := by
  rw [fetch_eq, fetch_eq, h]

end ContentCache

theorem HasDisk.disk_noted {σ : Type} [HasDisk σ] (world : σ) (inquiries : List Inquiry) :
    disk (Noted.mk world inquiries) = disk world := rfl

theorem HasDisk.withDisk_noted {σ : Type} [HasDisk σ] (world : σ) (inquiries : List Inquiry)
    (d : Disk) : withDisk (Noted.mk world inquiries) d = ⟨withDisk world d, inquiries⟩ := rfl

def Noted.forget {σ α : Type} : EStateM.Result Failure (Noted σ) α → EStateM.Result Failure σ α
  | .ok a s => .ok a s.world
  | .error f s => .error f s.world

def Noted.Served {σ : Type} (s : Noted σ) (url : String) (bytes : Bytes) : Prop :=
  ∃ q ∈ s.inquiries, q.url = url ∧ q.answer = .ok bytes

theorem Noted.Served.mono {σ : Type} {s s' : Noted σ} {url : String} {bytes : Bytes}
    (h : s.Served url bytes) (hsub : s.inquiries ⊆ s'.inquiries) : s'.Served url bytes := by
  obtain ⟨q, hq, hanswer⟩ := h
  exact ⟨q, hsub hq, hanswer⟩

namespace Sessions

variable {σ : Type} [HasDisk σ] {c : ContentCache} {source : Nat → Fetch σ} {names : List String}
  {s : Noted σ} {a : Action σ} {actions : List (Action σ)} {session : Nat} {url : String}
  {bytes : Bytes} {f : Failure} {world : σ}

section Steps

omit [HasDisk σ] in
theorem leftBy_of_ok {α : Type} {act : EStateM Failure σ α} {before after : σ} {x : α}
    (h : act before = .ok x after) : leftBy act before = after := by
  unfold leftBy
  rw [h]

omit [HasDisk σ] in
theorem leftBy_of_error {α : Type} {act : EStateM Failure σ α} {before after : σ}
    (h : act before = .error f after) : leftBy act before = after := by
  unfold leftBy
  rw [h]

theorem visit_cases (c : ContentCache) (source : Nat → Fetch σ) (session : Nat) (url : String)
    (s : Noted σ) :
    (∃ bytes, c.get? (HasDisk.disk s.world) url = some bytes ∧
      visit c source session url s = .ok bytes s) ∨
    c.get? (HasDisk.disk s.world) url = none ∧
      ((∃ f world, source session url s.world = .error f world ∧
        visit c source session url s =
          .error f ⟨world, s.inquiries ++ [⟨session, url, .error f⟩]⟩) ∨
      ∃ bytes world, source session url s.world = .ok bytes world ∧
        visit c source session url s =
          .ok bytes ⟨HasDisk.withDisk world (c.put url "0" bytes (HasDisk.disk world)).2,
            s.inquiries ++ [⟨session, url, .ok bytes⟩]⟩) := by
  cases hget : c.get? (HasDisk.disk s.world) url with
  | some bytes => exact .inl ⟨bytes, rfl, ContentCache.fetch_of_found hget⟩
  | none =>
    refine .inr ⟨rfl, ?_⟩
    cases hasked : source session url s.world with
    | error f world =>
      have hnoted : (source session).noted session url s =
          .error f ⟨world, s.inquiries ++ [⟨session, url, .error f⟩]⟩ := by
        rw [Fetch.noted, hasked]
      exact .inl ⟨f, world, rfl, ContentCache.fetch_of_failed hget hnoted⟩
    | ok bytes world =>
      have hnoted : (source session).noted session url s =
          .ok bytes ⟨world, s.inquiries ++ [⟨session, url, .ok bytes⟩]⟩ := by
        rw [Fetch.noted, hasked]
      have hmissing : c.get? (HasDisk.disk s) url = none := hget
      have hstored := ContentCache.fetch_of_fetched hmissing hnoted
      rw [HasDisk.disk_noted, HasDisk.withDisk_noted] at hstored
      exact .inr ⟨bytes, world, rfl, hstored⟩

theorem forget_visit (c : ContentCache) (source : Nat → Fetch σ) (session : Nat) (url : String)
    (s : Noted σ) : Noted.forget (visit c source session url s) =
      ContentCache.fetch (some c) (source session) url s.world := by
  rcases visit_cases c source session url s with
    ⟨bytes, hget, hv⟩ | ⟨hget, ⟨f, world, hasked, hv⟩ | ⟨bytes, world, hasked, hv⟩⟩
  · rw [hv, ContentCache.fetch_of_found hget]
    rfl
  · rw [hv, ContentCache.fetch_of_failed hget hasked]
    rfl
  · rw [hv, ContentCache.fetch_of_fetched hget hasked]
    rfl

theorem act_of_found (h : c.get? (HasDisk.disk s.world) url = some bytes) :
    act c source s (.fetch session url) = s := by
  rcases visit_cases c source session url s with ⟨b, -, hv⟩ | ⟨hget, -⟩
  · rw [act, leftBy_of_ok hv]
  · cases hget.symm.trans h

theorem act_of_failed (h : c.get? (HasDisk.disk s.world) url = none)
    (hf : source session url s.world = .error f world) : act c source s (.fetch session url) =
      ⟨world, s.inquiries ++ [⟨session, url, .error f⟩]⟩ := by
  rcases visit_cases c source session url s with
    ⟨b, hget, -⟩ | ⟨-, ⟨f', after, hasked, hv⟩ | ⟨b, after, hasked, -⟩⟩
  · cases h.symm.trans hget
  · cases hf.symm.trans hasked
    rw [act, leftBy_of_error hv]
  · cases hf.symm.trans hasked

theorem act_of_fetched (h : c.get? (HasDisk.disk s.world) url = none)
    (hb : source session url s.world = .ok bytes world) : act c source s (.fetch session url) =
      ⟨HasDisk.withDisk world (c.put url "0" bytes (HasDisk.disk world)).2,
        s.inquiries ++ [⟨session, url, .ok bytes⟩]⟩ := by
  rcases visit_cases c source session url s with
    ⟨b, hget, -⟩ | ⟨-, ⟨f, after, hasked, -⟩ | ⟨b, after, hasked, hv⟩⟩
  · cases h.symm.trans hget
  · cases hb.symm.trans hasked
  · cases hb.symm.trans hasked
    rw [act, leftBy_of_ok hv]

theorem get?_act_of_fetched (h : c.get? (HasDisk.disk s.world) url = none)
    (hb : source session url s.world = .ok bytes world)
    (hput : (c.put url "0" bytes (HasDisk.disk world)).1 = .ok ()) :
    c.get? (HasDisk.disk (act c source s (.fetch session url)).world) url = some bytes := by
  rw [act_of_fetched h hb, HasDisk.disk_withDisk]
  exact ContentCache.get?_put (by decide) hput

theorem actAll_append (c : ContentCache) (source : Nat → Fetch σ) (s : Noted σ)
    (actions later : List (Action σ)) : actAll c source s (actions ++ later) =
      actAll c source (actAll c source s actions) later :=
  List.foldl_append

theorem mem_inquiries_act {q : Inquiry} (hq : q ∈ (act c source s a).inquiries)
    (hok : q.answer = .ok bytes) : q ∈ s.inquiries ∨
      a = .fetch q.session q.url ∧
        ∃ world, source q.session q.url s.world = .ok bytes world := by
  cases a with
  | change f => exact .inl hq
  | fetch session url =>
    cases hget : c.get? (HasDisk.disk s.world) url with
    | some b =>
      rw [act_of_found hget] at hq
      exact .inl hq
    | none =>
      cases hasked : source session url s.world with
      | error f world =>
        rw [act_of_failed hget hasked] at hq
        rcases List.mem_append.mp hq with hq | hq
        · exact .inl hq
        · rw [List.mem_singleton.mp hq] at hok
          cases hok
      | ok b world =>
        rw [act_of_fetched hget hasked] at hq
        rcases List.mem_append.mp hq with hq | hq
        · exact .inl hq
        · obtain rfl := List.mem_singleton.mp hq
          cases hok
          exact .inr ⟨rfl, world, hasked⟩

theorem exists_fetch_of_served {start : σ}
    (h : (actAll c source ⟨start, []⟩ actions).Served url bytes) :
    ∃ session earlier, earlier ++ [.fetch session url] <+: actions ∧
      ∃ world, source session url (actAll c source ⟨start, []⟩ earlier).world =
        .ok bytes world := by
  obtain ⟨q, hq, rfl, hok⟩ := h
  induction actions using List.reverseRecOn with
  | nil => cases hq
  | append_singleton actions a ih =>
    rw [actAll_append] at hq
    rcases mem_inquiries_act hq hok with hq | ⟨rfl, hworld⟩
    · obtain ⟨session, earlier, hprefix, hworld⟩ := ih hq
      exact ⟨session, earlier, hprefix.trans (List.prefix_append _ _), hworld⟩
    · exact ⟨q.session, actions, List.prefix_rfl, hworld⟩

end Steps

section Conditions

/-- Holds when each action is as it should be in the state that it finds. -/
def Throughout (P : Noted σ → Action σ → Prop) (c : ContentCache) (source : Nat → Fetch σ) :
    Noted σ → List (Action σ) → Prop
  | _, [] => True
  | s, a :: rest => P s a ∧ Throughout P c source (act c source s a) rest

def Spares (c : ContentCache) (names : List String) (s : Noted σ) (after : σ) : Prop :=
  ∀ url ∈ names, ∀ bytes, c.entryAt? (HasDisk.disk after) url = some bytes →
    c.entryAt? (HasDisk.disk s.world) url = some bytes ∨ s.Served url bytes

/-- Others may do to the cache what they like, short of putting bytes of their own into it. -/
def Fair (c : ContentCache) (source : Nat → Fetch σ) (names : List String) (s : Noted σ) :
    Action σ → Prop
  | .fetch session url => url ∈ names ∧ (c.get? (HasDisk.disk s.world) url = none →
      Spares c names s (leftBy (source session url) s.world))
  | .change f => Spares c names s (f s.world)

theorem Spares.of_disk_eq {after : σ} (h : HasDisk.disk after = HasDisk.disk s.world) :
    Spares c names s after := by
  intro url _ bytes hentry
  rw [h] at hentry
  exact .inl hentry

theorem leftBy_fetchFromDirectory (root url : String) (world : σ) :
    leftBy (fetchFromDirectory root url) world = world := by
  unfold leftBy fetchFromDirectory
  dsimp only
  cases Disk.readFile (HasDisk.disk world) (Disk.joinPath root (relativeName url)) <;> rfl

def StaysReadable (c : ContentCache) (before after : Disk) : Prop :=
  ∀ url, (c.get? before url).isSome → (c.get? after url).isSome

/-- The cache is readable and writable: nothing in it goes away, and what is stored is stored. -/
def Working (c : ContentCache) (source : Nat → Fetch σ) (s : Noted σ) : Action σ → Prop
  | .fetch session url => c.get? (HasDisk.disk s.world) url = none →
      StaysReadable c (HasDisk.disk s.world)
        (HasDisk.disk (leftBy (source session url) s.world)) ∧
      ∀ bytes world, source session url s.world = .ok bytes world →
        (c.put url "0" bytes (HasDisk.disk world)).1 = .ok ()
  | .change f => StaysReadable c (HasDisk.disk s.world) (HasDisk.disk (f s.world))

end Conditions

section Entries

def Genuine (c : ContentCache) (names : List String) (s : Noted σ) : Prop :=
  ∀ url ∈ names, ∀ bytes, c.entryAt? (HasDisk.disk s.world) url = some bytes → s.Served url bytes

theorem Genuine.of_spares {after : Noted σ} (hs : Genuine c names s)
    (hspares : Spares c names s after.world) (hsub : s.inquiries ⊆ after.inquiries) :
    Genuine c names after := by
  intro url hurl bytes hentry
  rcases hspares url hurl bytes hentry with hbefore | hserved
  · exact (hs url hurl bytes hbefore).mono hsub
  · exact hserved.mono hsub

theorem genuine_act (hsha : ContentCache.ToldApart names) (hs : Genuine c names s)
    (ha : Fair c source names s a) : Genuine c names (act c source s a) := by
  cases a with
  | change f => exact hs.of_spares ha (List.Subset.refl _)
  | fetch session url =>
    obtain ⟨hurl, ha⟩ := ha
    cases hget : c.get? (HasDisk.disk s.world) url with
    | some bytes =>
      rw [act_of_found hget]
      exact hs
    | none =>
      have ha := ha hget
      cases hasked : source session url s.world with
      | error f world =>
        rw [leftBy_of_error hasked] at ha
        rw [act_of_failed hget hasked]
        exact hs.of_spares ha (List.subset_append_left _ _)
      | ok bytes world =>
        rw [leftBy_of_ok hasked] at ha
        rw [act_of_fetched hget hasked]
        have hbefore : Genuine c names ⟨world, s.inquiries ++ [⟨session, url, .ok bytes⟩]⟩ :=
          hs.of_spares ha (List.subset_append_left _ _)
        intro other hother b hentry
        rw [HasDisk.disk_withDisk] at hentry
        have htag : '/' ∉ "0".toList := by decide
        have hstores := ContentCache.stores_put htag c url bytes (HasDisk.disk world)
        rcases hstores.entryAt? htag other with heq | ⟨hname, heq⟩
        · exact hbefore other hother b (heq.symm.trans hentry)
        -- Only the entry of the name that was asked for has new bytes.
        · obtain rfl : other = url := hsha other hother url hurl hname
          obtain rfl : bytes = b := Option.some.inj (heq.symm.trans hentry)
          exact ⟨_, List.mem_append_right _ (List.mem_singleton_self _), rfl, rfl⟩

theorem genuine_actAll (hsha : ContentCache.ToldApart names) (hs : Genuine c names s)
    (hactions : Throughout (Fair c source names) c source s actions) :
    Genuine c names (actAll c source s actions) := by
  induction actions generalizing s with
  | nil => exact hs
  | cons a rest ih => exact ih (genuine_act hsha hs hactions.1) hactions.2

theorem genuine_start {start : σ}
    (hstart : ∀ url ∈ names, c.entryAt? (HasDisk.disk start) url = none) :
    Genuine c names ⟨start, []⟩ := by
  intro url hurl bytes hentry
  rw [hstart url hurl] at hentry
  cases hentry

end Entries

section Once

def mostAnswers (c : ContentCache) (url : String) (s : Noted σ) : Nat :=
  s.inquiries.countP (·.isAnswered url) +
    if (c.get? (HasDisk.disk s.world) url).isSome then 0 else 1

theorem mostAnswers_le_of_readable {after : Noted σ}
    (hcount : after.inquiries.countP (·.isAnswered url) =
      s.inquiries.countP (·.isAnswered url))
    (hreadable : (c.get? (HasDisk.disk s.world) url).isSome →
      (c.get? (HasDisk.disk after.world) url).isSome) :
    mostAnswers c url after ≤ mostAnswers c url s := by
  unfold mostAnswers
  rw [hcount]
  refine Nat.add_le_add_left ?_ _
  split
  · exact Nat.zero_le _
  · next hafter =>
    exact Nat.le_of_eq (if_neg fun hs => hafter (hreadable hs)).symm

theorem mostAnswers_act_le (url : String) (ha : Working c source s a) :
    mostAnswers c url (act c source s a) ≤ mostAnswers c url s := by
  cases a with
  | change f => exact mostAnswers_le_of_readable rfl (ha url)
  | fetch session other =>
    cases hget : c.get? (HasDisk.disk s.world) other with
    | some bytes => exact Nat.le_of_eq (congrArg (mostAnswers c url) (act_of_found hget))
    | none =>
      obtain ⟨hstays, hstored⟩ := ha hget
      cases hasked : source session other s.world with
      | error f world =>
        rw [leftBy_of_error hasked] at hstays
        rw [act_of_failed hget hasked]
        refine mostAnswers_le_of_readable ?_ (hstays url)
        simp [Inquiry.isAnswered, Except.isOk, Except.toBool]
      | ok bytes world =>
        rw [leftBy_of_ok hasked] at hstays
        have hput := hstored bytes world hasked
        by_cases hne : other = url
        -- The answer is made up for by the entry, which can be read from now on.
        · subst hne
          have hread := Option.isSome_of_eq_some (get?_act_of_fetched hget hasked hput)
          have hblank := Option.not_isSome_iff_eq_none.mpr hget
          rw [mostAnswers, mostAnswers, if_pos hread, if_neg hblank, act_of_fetched hget hasked]
          simp [Inquiry.isAnswered, Except.isOk, Except.toBool]
        · rw [act_of_fetched hget hasked]
          refine mostAnswers_le_of_readable ?_ fun hs => ?_
          · simp [Inquiry.isAnswered, hne]
          · rw [HasDisk.disk_withDisk]
            exact ContentCache.isSome_get?_put (by decide) other bytes (hstays url hs)

theorem mostAnswers_actAll_le (url : String)
    (hactions : Throughout (Working c source) c source s actions) :
    mostAnswers c url (actAll c source s actions) ≤ mostAnswers c url s := by
  induction actions generalizing s with
  | nil => exact Nat.le_refl _
  | cons a rest ih => exact Nat.le_trans (ih hactions.2) (mostAnswers_act_le url hactions.1)

theorem countP_actAll_le (url : String)
    (hactions : Throughout (Working c source) c source s actions) :
    (actAll c source s actions).inquiries.countP (·.isAnswered url) ≤
      s.inquiries.countP (·.isAnswered url) + 1 := by
  have hmost := mostAnswers_actAll_le url hactions
  unfold mostAnswers at hmost
  split at hmost <;> split at hmost <;> omega

end Once

section Answers

theorem served_of_visit (hs : Genuine c names s) (hurl : url ∈ names) {after : Noted σ}
    (h : visit c source session url s = .ok bytes after) : after.Served url bytes := by
  rcases visit_cases c source session url s with
    ⟨b, hget, hv⟩ | ⟨-, ⟨f, world, -, hv⟩ | ⟨b, world, -, hv⟩⟩
  · cases hv.symm.trans h
    exact hs url hurl _ (ContentCache.get?_eq_some.mp hget).2
  · cases hv.symm.trans h
  · cases hv.symm.trans h
    exact ⟨_, List.mem_append_right _ (List.mem_singleton_self _), rfl, rfl⟩

theorem visit_eq_error {after : Noted σ} (h : visit c source session url s = .error f after) :
    ∃ world, source session url s.world = .error f world ∧
      after = ⟨world, s.inquiries ++ [⟨session, url, .error f⟩]⟩ := by
  rcases visit_cases c source session url s with
    ⟨b, -, hv⟩ | ⟨-, ⟨f', world, hasked, hv⟩ | ⟨b, world, -, hv⟩⟩
  · cases hv.symm.trans h
  · cases hv.symm.trans h
    exact ⟨world, hasked, rfl⟩
  · cases hv.symm.trans h

/-- What sessions over one source may count on. -/
structure Faithful (c : ContentCache) (source : Fetch σ) (names : List String) (s : Noted σ) :
    Prop where
  served : ∀ session, ∀ url ∈ names, ∀ bytes after,
    visit c (fun _ => source) session url s = .ok bytes after → after.Served url bytes
  failed : ∀ session url f after, visit c (fun _ => source) session url s = .error f after →
    ∃ world, source url s.world = .error f world ∧
      after = ⟨world, s.inquiries ++ [⟨session, url, .error f⟩]⟩
  stored : ∀ url ∈ names, ∀ bytes,
    c.entryAt? (HasDisk.disk s.world) url = some bytes → s.Served url bytes
  once : ∀ later, Throughout (Working c fun _ => source) c (fun _ => source) s later →
    ∀ url, (actAll c (fun _ => source) s later).inquiries.countP (·.isAnswered url) ≤
      s.inquiries.countP (·.isAnswered url) + 1

theorem faithful_actAll {source : Fetch σ} (hsha : ContentCache.ToldApart names) {start : σ}
    (hstart : ∀ url ∈ names, c.entryAt? (HasDisk.disk start) url = none)
    (hactions : Throughout (Fair c (fun _ => source) names) c (fun _ => source) ⟨start, []⟩
      actions) : Faithful c source names (actAll c (fun _ => source) ⟨start, []⟩ actions) where
  served _ _ hurl _ _ h :=
    served_of_visit (genuine_actAll hsha (genuine_start hstart) hactions) hurl h
  failed _ _ _ _ h := visit_eq_error h
  stored := genuine_actAll hsha (genuine_start hstart) hactions
  once _ hlater url := countP_actAll_le url hlater

theorem faithful_after_blocking :
    let c : ContentCache := ⟨"cache"⟩
    let source : Fetch Disk := fetchFromDirectory "assets"
    let start : Disk := .ofChildren [("assets", .dir (.ofChildren [("x", .file [1, 2])]))]
    let names := ["x"]
    let actions : List (Action Disk) := [.fetch 0 "x", .fetch 1 "x",
      .change fun d => d.insert "cache" (.file []), .fetch 1 "x"]
    ContentCache.ToldApart names ∧ (∀ url ∈ names, c.entryAt? start url = none) ∧
      Throughout (Fair c (fun _ => source) names) c (fun _ => source) ⟨start, []⟩ actions ∧
      Faithful c source names (actAll c (fun _ => source) ⟨start, []⟩ actions) := by
  intro c source start names actions
  have hsha : ContentCache.ToldApart names := ContentCache.toldApart_singleton "x"
  have hstart : ∀ url ∈ names, c.entryAt? start url = none :=
    fun url _ => ContentCache.entryAt?_of_no_dir (by decide +kernel) url
  have hread (session : Nat) (url : String) (hurl : url ∈ names) (s : Noted Disk) :
      Fair c (fun _ => source) names s (.fetch session url) := by
    refine ⟨hurl, fun _ => .of_disk_eq ?_⟩
    rw [leftBy_fetchFromDirectory]
  have hblock (s : Noted Disk) :
      Fair c (fun _ => source) names s (.change fun d => d.insert "cache" (.file [])) := by
    intro url _ bytes hentry
    have hdir : Disk.place c.dir = ["cache"] := by decide +kernel
    have hgone : (Directory.insert "cache" (.file []) s.world).dirAt? ["cache"] = none := by
      rw [Directory.dirAt?_cons, Directory.get?_insert, if_pos rfl]
      rfl
    rw [← hdir] at hgone
    cases (ContentCache.entryAt?_of_no_dir hgone url).symm.trans hentry
  have hactions : Throughout (Fair c (fun _ => source) names) c (fun _ => source) ⟨start, []⟩
      actions :=
    ⟨hread 0 "x" (by decide) _, hread 1 "x" (by decide) _, hblock _,
      hread 1 "x" (by decide) _, trivial⟩
  exact ⟨hsha, hstart, hactions, faithful_actAll hsha hstart hactions⟩

end Answers

end Sessions

end Buildbox
