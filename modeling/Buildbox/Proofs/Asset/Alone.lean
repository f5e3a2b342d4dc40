import Buildbox.Asset.Toolchain
import Buildbox.Proofs.Asset.Crowd

/-! A caller whom nobody interrupts does what a store and a toolchain do. -/

namespace Buildbox

namespace Crowd

variable {σ κ α : Type} [DecidableEq κ]

def visit (r : Nat → Recipe σ κ α) (store : Nat) (key : κ) (c : Crowd σ κ α) : Crowd σ κ α :=
  let i := c.callers.length
  c.actAll r [.call store key, .go i, .go i, .go i]

def withAnswer (c : Crowd σ κ α) (store : Nat) (key : κ) (answer : Except Failure α) (world : σ)
    (cache : OnceMap κ α) (asked : List κ) : Crowd σ κ α :=
  { world, cache, callers := c.callers ++ [⟨store, key, .ended answer⟩], asked }

variable {r : Nat → Recipe σ κ α} {c : Crowd σ κ α} {store : Nat} {key : κ}

theorem go_last (world : σ) (cache : OnceMap κ α) (e : Errand α) (asked : List κ) :
    go r c.callers.length { world, cache, callers := c.callers ++ [⟨store, key, e⟩], asked } =
      let (e', cache, world) := (r store).step key e cache world
      { world, cache, callers := c.callers ++ [⟨store, key, e'⟩],
        asked := if e.asks then asked ++ [key] else asked } := by
  simp [go]

theorem visit_eq : c.visit r store key =
    (((c.call store key).go r c.callers.length).go r c.callers.length).go r c.callers.length := rfl

theorem visit_of_some {a : α} (ha : c.cache.get? key = some a) :
    c.visit r store key = c.withAnswer store key (.ok a) c.world c.cache c.asked := by
  simp [visit_eq, call, go_last, Recipe.step, Errand.asks, ha, withAnswer]

theorem visit_claims (hn : c.cache.get? key = none) (hf : key ∉ c.cache.filling) :
    c.visit r store key =
      go r c.callers.length (go r c.callers.length
        { c with cache := c.cache.start key, callers := c.callers ++ [⟨store, key, .fetching⟩] }) := by
  have hclaim : (r store).step key .waiting c.cache c.world =
      (.fetching, c.cache.start key, c.world) := by
    simp only [Recipe.step, hn, if_neg hf]
  rw [visit_eq, call, go_last, hclaim]
  rfl

theorem visit_of_unfetched {f : Failure} {world : σ} (hn : c.cache.get? key = none)
    (hf : key ∉ c.cache.filling) (hb : (r store).fetch key c.world = .error f world) :
    c.visit r store key =
      c.withAnswer store key (.error f) world ((c.cache.start key).abandon key)
        (c.asked ++ [key]) := by
  simp [visit_claims hn hf, go_last, Recipe.step, Errand.asks, withAnswer, hb]

theorem visit_of_fetched {bytes : Bytes} {world : σ} (hn : c.cache.get? key = none)
    (hf : key ∉ c.cache.filling) (hb : (r store).fetch key c.world = .ok bytes world) :
    c.visit r store key =
      match (r store).make c.cache.size key bytes with
      | .ok a =>
        c.withAnswer store key (.ok a) world ((c.cache.start key).fill key a) (c.asked ++ [key])
      | .error f =>
        c.withAnswer store key (.error f) world ((c.cache.start key).abandon key)
          (c.asked ++ [key]) := by
  have hsize : (c.cache.start key).size = c.cache.size := rfl
  cases ha : (r store).make c.cache.size key bytes with
  | ok | error =>
    simp [visit_claims hn hf, go_last, Recipe.step, Errand.asks, withAnswer, hb, hsize, ha]

end Crowd

namespace ArchiveStore

variable {σ : Type} {fetch : Fetch σ} {key : ArchiveKey}

theorem begin_eq (s : ArchiveStore σ) :
    begin fetch key s =
      match s.cache.get? key with
      | some root => .ok (.ready root) s
      | none =>
        if key ∈ s.cache.filling then .ok .waiting s
        else match fetch key.url s.source with
          | .ok bytes source => .ok (.fetched bytes) { source, cache := s.cache.start key }
          | .error f source => .error f { source, cache := (s.cache.start key).abandon key } := by
  have hget {β : Type} (next : ArchiveStore σ → EStateM Failure (ArchiveStore σ) β) :
      (get >>= next) s = next s s := rfl
  rw [begin, hget]
  cases s.cache.get? key with
  | some root => rfl
  | none =>
    by_cases hf : key ∈ s.cache.filling
    · simp only [if_pos hf]
      rfl
    · simp only [if_neg hf]
      have hbytes : fetchBytes fetch key.url { s with cache := s.cache.start key } =
          match fetch key.url s.source with
          | .ok bytes source => .ok bytes { source, cache := s.cache.start key }
          | .error f source => .error f { source, cache := s.cache.start key } := rfl
      change EStateM.bind (EStateM.tryCatch (EStateM.bind (fetchBytes fetch key.url) _) _) _
        { s with cache := s.cache.start key } = _
      delta EStateM.bind EStateM.tryCatch
      dsimp only
      rw [hbytes]
      cases fetch key.url s.source <;> rfl

theorem decode_eq (s : ArchiveStore σ) (bytes : Bytes) :
    decode key bytes s =
      match SharedRoot.ofBytes s.cache.size key bytes with
      | .ok a => .ok a { s with cache := s.cache.fill key a }
      | .error f => .error f { s with cache := s.cache.abandon key } := by
  have hget {β : Type} (next : ArchiveStore σ → EStateM Failure (ArchiveStore σ) β) :
      (get >>= next) s = next s s := rfl
  rw [decode, hget]
  cases SharedRoot.ofBytes s.cache.size key bytes <;> rfl

theorem root_eq (s : ArchiveStore σ) :
    root fetch key s =
      match begin fetch key s with
      | .ok pending s => finish fetch key pending s
      | .error f s => .error f s := by
  change EStateM.bind (begin fetch key) (finish fetch key) s = _
  unfold EStateM.bind
  cases begin fetch key s <;> rfl

/-- With nobody in between, a call for an archive does to the map and to the sources what
`ArchiveStore.root` does, and gives the same answer. -/
theorem root_alone (c : Crowd σ ArchiveKey SharedRoot) (hf : key ∉ c.cache.filling) :
    ∃ answer world cache asked,
      c.visit (fun _ => ArchiveCache.recipe fetch) 0 key =
        c.withAnswer 0 key answer world cache asked ∧
      root fetch key { source := c.world, cache := c.cache } =
        match answer with
        | .ok a => .ok a { source := world, cache }
        | .error f => .error f { source := world, cache } := by
  rw [root_eq, begin_eq]
  cases ha : c.cache.get? key with
  | some a => exact ⟨_, _, _, _, Crowd.visit_of_some ha, rfl⟩
  | none =>
    simp only [if_neg hf]
    cases hb : fetch key.url c.world with
    | error f world => exact ⟨_, _, _, _, Crowd.visit_of_unfetched ha hf hb, rfl⟩
    | ok bytes world =>
      have hvisit : c.visit (fun _ => ArchiveCache.recipe fetch) 0 key = _ :=
        Crowd.visit_of_fetched ha hf hb
      have hsize : (c.cache.start key).size = c.cache.size := rfl
      simp only [finish, decode_eq, hsize]
      simp only [ArchiveCache.recipe] at hvisit
      cases hd : SharedRoot.ofBytes c.cache.size key bytes with
      | ok | error =>
        rw [hd] at hvisit
        exact ⟨_, _, _, _, hvisit, rfl⟩

end ArchiveStore

namespace Toolchain

variable {σ : Type} {fetch : Fetch σ} {url : String}

theorem module_eq (t : Toolchain σ) :
    module fetch url t =
      match t.modules.get? url with
      | some bytes => .ok bytes t
      | none =>
        match fetch url t.archives.source with
        | .ok bytes source =>
          .ok bytes
            { archives := { t.archives with source }, modules := t.modules.insert url bytes }
        | .error f source => .error f { t with archives := { t.archives with source } } := by
  have hget {β : Type} (next : Toolchain σ → EStateM Failure (Toolchain σ) β) :
      (get >>= next) t = next t t := rfl
  rw [module, hget]
  cases t.modules.get? url with
  | some bytes => rfl
  | none =>
    have hbytes : inArchives (ArchiveStore.fetchBytes fetch url) t =
        match fetch url t.archives.source with
        | .ok bytes source => .ok bytes { t with archives := { t.archives with source } }
        | .error f source => .error f { t with archives := { t.archives with source } } := by
      simp only [inArchives, ArchiveStore.fetchBytes]
      cases fetch url t.archives.source <;> rfl
    change EStateM.bind (inArchives (ArchiveStore.fetchBytes fetch url)) _ t = _
    unfold EStateM.bind
    rw [hbytes]
    cases fetch url t.archives.source <;> rfl

structure Shows (t : Toolchain σ) (world : σ) (cache : OnceMap String Bytes) : Prop where
  source : t.archives.source = world
  modules : ∀ url, t.modules.get? url = cache.get? url

theorem module_alone {t : Toolchain σ} {c : Crowd σ String Bytes}
    (ht : t.Shows c.world c.cache) (hf : url ∉ c.cache.filling) :
    ∃ answer world cache asked t',
      c.visit (fun _ => recipe fetch) 0 url = c.withAnswer 0 url answer world cache asked ∧
      t'.Shows world cache ∧
      module fetch url t =
        match answer with
        | .ok bytes => .ok bytes t'
        | .error f => .error f t' := by
  obtain ⟨hsource, hmodules⟩ := ht
  rw [module_eq, hmodules, hsource]
  cases ha : c.cache.get? url with
  | some bytes => exact ⟨_, _, _, _, t, Crowd.visit_of_some ha, ⟨hsource, hmodules⟩, rfl⟩
  | none =>
    cases hb : fetch url c.world with
    | error f world =>
      exact ⟨_, _, _, _, { t with archives := { t.archives with source := world } },
        Crowd.visit_of_unfetched ha hf hb, ⟨rfl, hmodules⟩, rfl⟩
    | ok bytes world =>
      refine ⟨_, _, _, _, { archives := { t.archives with source := world }
                            modules := t.modules.insert url bytes },
        Crowd.visit_of_fetched ha hf hb, ⟨rfl, fun other => ?_⟩, rfl⟩
      rw [NameMap.get?_insert]
      by_cases hurl : url = other
      · subst hurl
        rw [if_pos rfl]
        exact (OnceMap.get?_fill_self (c := c.cache.start url) ha).symm
      · rw [if_neg hurl, hmodules]
        exact (OnceMap.get?_fill_of_ne (c := c.cache.start url) hurl).symm

end Toolchain

end Buildbox
