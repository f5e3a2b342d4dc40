import Buildbox.Asset.Toolchain
import Buildbox.Proofs.Asset.Sessions

/-! Configurations that share a cache but not their bases. An entry is known by the name that is
asked for; the base it came from is told apart by the space of the cache alone. -/

namespace Buildbox

section Bases

variable {σ : Type} [HasDisk σ]

theorem leftBy_fetchBelow (client : WebClient) (base url : String) (world : σ) :
    leftBy (fetchBelow client base url) world = world := by
  unfold fetchBelow
  split
  · unfold leftBy Web.fetch
    dsimp only
    cases client (Web.resolve base url) with
    | error detail => rfl
    | ok response =>
      dsimp only
      by_cases hstatus : 200 ≤ response.status ∧ response.status < 300
      · rw [if_pos hstatus]
      · rw [if_neg hstatus]
  · exact Sessions.leftBy_fetchFromDirectory base url world

def Config.sources (config : Nat → Config) (web : Nat → σ → WebClient) : Nat → Fetch σ :=
  fun i url world => fetchBelow (web i world) (config i).assets.base url world

variable {config : Nat → Config} {web : Nat → σ → WebClient} {dir space : String}
  {names : List String} {url : String} {bytes : Bytes} {world after : σ} {i : Nat}

theorem Config.eq_of_sources (h : Config.sources config web i url world = .ok bytes after) :
    after = world := by
  have hleft := leftBy_fetchBelow (web i world) (config i).assets.base url world
  exact (Sessions.leftBy_of_ok h).symm.trans hleft

theorem Config.fetch_eq (hcache : (config i).cache = ⟨some dir, space⟩) (world : σ) :
    (config i).fetch (web i world) url world =
      ContentCache.fetch (some (.below dir space)) (Config.sources config web i) url world := by
  rw [Config.fetch, hcache, Option.map_some]
  exact ContentCache.fetch_congr rfl

end Bases

namespace Sessions

variable {σ : Type} [HasDisk σ] {config : Nat → Config} {web : Nat → σ → WebClient}
  {dir space : String} {names : List String} {actions : List (Action σ)} {start : σ}

theorem fair_fetch {c : ContentCache} {url : String} (hurl : url ∈ names) (i : Nat)
    (s : Noted σ) : Fair c (Config.sources config web) names s (.fetch i url) := by
  refine ⟨hurl, fun _ => .of_disk_eq ?_⟩
  exact congrArg HasDisk.disk (leftBy_fetchBelow _ _ url s.world)

/-- The world that sessions with these configurations come to. -/
def reached (config : Nat → Config) (web : Nat → σ → WebClient) (c : ContentCache) (start : σ)
    (actions : List (Action σ)) : σ :=
  (actAll c (Config.sources config web) ⟨start, []⟩ actions).world

/-- The base of a configuration has the bytes for a name, in the world that actions lead to. -/
def Serves (config : Nat → Config) (web : Nat → σ → WebClient) (c : ContentCache) (start : σ)
    (actions : List (Action σ)) (i : Nat) (url : String) (bytes : Bytes) : Prop :=
  let world := reached config web c start actions
  fetchBelow (web i world) (config i).assets.base url world = .ok bytes world

/-- A name that the cache does not have is answered by the session's own base. One that it has is
answered with what the base of some session over the cache served for it before. -/
theorem fetch_over_shared_cache {c : ContentCache} (hc : c = .below dir space)
    (hcache : ∀ i, (config i).cache = ⟨some dir, space⟩) (hsha : ContentCache.ToldApart names)
    (hstart : ∀ url ∈ names, c.entryAt? (HasDisk.disk start) url = none)
    (hactions : Throughout (Fair c (Config.sources config web) names) c
      (Config.sources config web) ⟨start, []⟩ actions) :
    let world := reached config web c start actions
    ∀ i, ∀ url ∈ names, ∀ bytes after,
      (config i).fetch (web i world) url world = .ok bytes after →
        c.get? (HasDisk.disk world) url = none ∧
          Serves config web c start actions i url bytes ∨
        c.get? (HasDisk.disk world) url = some bytes ∧
          ∃ j earlier, earlier ++ [.fetch j url] <+: actions ∧
            Serves config web c start earlier j url bytes := by
  intro world i url hurl bytes after h
  rw [Config.fetch_eq (hcache i), ← hc] at h
  cases hget : c.get? (HasDisk.disk world) url with
  | some b =>
    rw [ContentCache.fetch_of_found hget] at h
    cases h
    have hgenuine := genuine_actAll hsha (genuine_start hstart) hactions
    have hserved := hgenuine url hurl bytes (ContentCache.get?_eq_some.mp hget).2
    obtain ⟨j, earlier, hprefix, world, hworld⟩ := exists_fetch_of_served hserved
    obtain rfl := Config.eq_of_sources hworld
    exact .inr ⟨rfl, j, earlier, hprefix, hworld⟩
  | none =>
    refine .inl ⟨rfl, ?_⟩
    cases hasked : Config.sources config web i url world with
    | error f world =>
      rw [ContentCache.fetch_of_failed hget hasked] at h
      cases h
    | ok b world =>
      rw [ContentCache.fetch_of_fetched hget hasked] at h
      cases h
      obtain rfl := Config.eq_of_sources hasked
      exact hasked

def twoBases : Disk :=
  .ofChildren [("one", .dir (.ofChildren [("x", .file [1])])),
    ("two", .dir (.ofChildren [("x", .file [2])]))]

def oneOrTwo (i : Nat) : Config where
  assets := { base := if i = 0 then "one" else "two" }
  cache := { dir := some "cache", space := "space" }

def bothCache : ContentCache :=
  .below "cache" "space"

def offline (_ : Nat) (_ : Disk) : WebClient :=
  fun _ => .error "offline"

theorem fetch_after_other_base :
    let actions : List (Action Disk) := [.fetch 0 "x"]
    let world := reached oneOrTwo offline bothCache twoBases actions
    (∀ i, (oneOrTwo i).cache = ⟨some "cache", "space"⟩) ∧ ContentCache.ToldApart ["x"] ∧
      (∀ url ∈ ["x"], bothCache.entryAt? (HasDisk.disk twoBases) url = none) ∧
      Throughout (Fair bothCache (Config.sources oneOrTwo offline) ["x"]) bothCache
        (Config.sources oneOrTwo offline) ⟨twoBases, []⟩ actions ∧
      ∀ bytes after, (oneOrTwo 1).fetch (offline 1 world) "x" world = .ok bytes after →
        bothCache.get? (HasDisk.disk world) "x" = none ∧
          Serves oneOrTwo offline bothCache twoBases actions 1 "x" bytes ∨
        bothCache.get? (HasDisk.disk world) "x" = some bytes ∧
          ∃ j earlier, earlier ++ [.fetch j "x"] <+: actions ∧
            Serves oneOrTwo offline bothCache twoBases earlier j "x" bytes := by
  intro actions world
  have hsha := ContentCache.toldApart_singleton "x"
  have hgone : (HasDisk.disk twoBases).dirAt? (Disk.place bothCache.dir) = none := by
    decide +kernel
  have hstart : ∀ url ∈ ["x"], bothCache.entryAt? (HasDisk.disk twoBases) url = none :=
    fun url _ => ContentCache.entryAt?_of_no_dir hgone url
  have hactions : Throughout (Fair bothCache (Config.sources oneOrTwo offline) ["x"]) bothCache
      (Config.sources oneOrTwo offline) ⟨twoBases, []⟩ actions :=
    ⟨fair_fetch (List.mem_singleton_self _) 0 _, trivial⟩
  have hfetch := fetch_over_shared_cache rfl (fun _ => rfl) hsha hstart hactions
  exact ⟨fun _ => rfl, hsha, hstart, hactions, hfetch 1 "x" (List.mem_singleton_self _)⟩

theorem put_beside_bases (url : String) (bytes : Bytes) :
    (bothCache.put url "0" bytes (HasDisk.disk twoBases)).1 = .ok () := by
  let made : Disk := .insert "cache" (.dir (.ofChildren [("space", .dir .empty)])) twoBases
  have hmade : Disk.createDirs (HasDisk.disk twoBases) bothCache.dir = (.ok (), made) := by
    decide +kernel
  have hparts : Disk.usableParts bothCache.dir = .ok ["cache", "space"] := by decide +kernel
  have hfollow : Disk.follow made [] ["cache", "space"] = .ok (Disk.place bothCache.dir) := by
    decide +kernel
  have hdir : made.dirAt? (Disk.place bothCache.dir) = some .empty := by decide +kernel
  refine ContentCache.put_of_free (by decide) (by decide) hmade ⟨_, hparts, hfollow⟩ hdir ?_ ?_
    (by decide +kernel) (by decide)
  · exact fun s hs => by cases hs
  · exact fun s hs => by cases hs

theorem fetch_of_other_base :
    let world := reached oneOrTwo offline bothCache twoBases [.fetch 0 "x"]
    (oneOrTwo 1).fetch (offline 1 world) "x" world = .ok [1] world ∧
      (actAll bothCache (Config.sources oneOrTwo offline) ⟨twoBases, []⟩
        [.fetch 0 "x", .fetch 1 "x"]).inquiries = [⟨0, "x", .ok [1]⟩] ∧
      fetchBelow (offline 1 twoBases) (oneOrTwo 1).assets.base "x" twoBases =
        .ok [2] twoBases := by
  have hgone : (HasDisk.disk twoBases).dirAt? (Disk.place bothCache.dir) = none := by
    decide +kernel
  have hone : Config.sources oneOrTwo offline 0 "x" twoBases = .ok [1] twoBases := by rfl
  have htwo : Config.sources oneOrTwo offline 1 "x" twoBases = .ok [2] twoBases := by rfl
  have hmissing := ContentCache.get?_of_no_dir hgone "x"
  have hput := put_beside_bases "x" [1]
  obtain ⟨s, hs⟩ : ∃ s, act bothCache (Config.sources oneOrTwo offline) ⟨twoBases, []⟩
      (.fetch 0 "x") = s := ⟨_, rfl⟩
  have hfound : bothCache.get? (HasDisk.disk s.world) "x" = some [1] := by
    rw [← hs]
    exact get?_act_of_fetched hmissing hone hput
  have hfirst : s.inquiries = [⟨0, "x", .ok [1]⟩] := by
    have hnoted := act_of_fetched (s := ⟨twoBases, []⟩) hmissing hone
    rw [← hs, hnoted]
    rfl
  have hworld : reached oneOrTwo offline bothCache twoBases [.fetch 0 "x"] = s.world := by
    rw [reached, actAll, List.foldl_cons, List.foldl_nil, hs]
  have hcache : (oneOrTwo 1).cache = ⟨some "cache", "space"⟩ := rfl
  rw [hworld]
  refine ⟨(Config.fetch_eq hcache s.world).trans (ContentCache.fetch_of_found hfound), ?_, htwo⟩
  rw [actAll, List.foldl_cons, List.foldl_cons, List.foldl_nil, hs, act_of_found hfound, hfirst]

end Sessions

end Buildbox
