import Buildbox.Guest.Run
import Buildbox.Proofs.Guest.Quiet

/-! Calls that fail for the guest. An import reads its arguments from guest memory, calls the host
and then stores the answer. If the host refuses, nothing has changed; but an answer that cannot be
stored is a fault, and what the host did stays done. -/

namespace Buildbox

namespace Import

open GuestM

/-- Imports that make a host call with an effect and still have to store its answer. -/
inductive Makes (m : GuestMemory) : Import → Host.Call → Prop where
  | fdWrite {fd array count nwritten data} (hg : m.gather array count = .ok data) :
    Makes m (.fdWrite fd array count nwritten) (.fdWrite fd data)
  | fdPwrite {fd array count offset nwritten data} (hg : m.gather array count = .ok data) :
    Makes m (.fdPwrite fd array count offset nwritten) (.fdPwrite fd data offset)
  | fdRead {fd array count nread capacity} (hc : m.capacity array count = .ok capacity) :
    Makes m (.fdRead fd array count nread) (.fdRead fd capacity)
  | fdSeek {fd offset whence out} :
    Makes m (.fdSeek fd offset whence out) (.fdSeek fd offset whence)
  | pathOpen {fd path length flags fdflags opened name}
    (ht : m.readText path length.toNat = .ok name) :
    Makes m (.pathOpen fd path length flags fdflags opened)
      (.pathOpen fd name (.ofBits flags) (appendBit fdflags))

def Unplaced (m : GuestMemory) : Import → Host.Reply → Prop
  | .fdWrite _ _ _ out, _ | .fdPwrite _ _ _ _ out, _ | .pathOpen _ _ _ _ _ out, _ =>
    m.size < out.toNat + 4
  | .fdSeek _ _ _ out, _ => m.size < out.toNat + 8
  | .fdRead _ array count out, .bytes data =>
    m.size < out.toNat + 4 ∨ ∃ vs, m.iovecs array count = .ok vs ∧ m.Overruns data.length vs
  | _, _ => False

def storesAnswer : Import → Bool
  | fdWrite .. | fdPwrite .. | fdRead .. | fdSeek .. | pathOpen .. => true
  | _ => false

theorem settled_randomGet (buffer : Address) (length : UInt32) :
    Settled (call (.randomGet buffer length)) := by
  intro s e s' herr
  -- The room is checked before the bytes are drawn, and they take just that room.
  obtain hcheck | ⟨_, s₁, hcheck, herr⟩ := HostM.bind_eq_error.mp herr
  · exact (quiet_load _).error hcheck
  · obtain ⟨hroom, rfl⟩ := load_eq_ok.mp hcheck
    obtain hstay | ⟨bytes, h, hdrawn, herr⟩ :=
      host_bind_eq_error (HostM.sure_modifyGet _).atomic herr
    · exact hstay
    · have hbytes : bytes.length = length.toNat := by
        rw [← Host.length_randomBytes s.host length.toNat, HostM.modifyGet_eq_ok.mp hdrawn]
      obtain ⟨_, hwrite, -⟩ := store_eq_error.mp herr
      have hout := (GuestMemory.write_eq_error.mp hwrite).1
      rw [hbytes] at hout
      rw [GuestMemory.check, if_neg (Nat.not_le.mpr hout)] at hroom
      cases hroom

theorem settled_fdTell (fd : Fd) (out : Address) : Settled (call (.fdTell fd out)) := by
  intro s e s' herr
  obtain hstay | ⟨position, h, hok, herr⟩ := host_bind_eq_error (Host.atomic_fdSeek ..) herr
  · exact hstay
  · obtain ⟨-, -, rfl⟩ := put_eq_error.mp herr
    exact Host.fdSeek_tell hok

theorem settled_call {i : Import} (hi : i.storesAnswer = false) : Settled i.call := by
  cases i with
  | fdWrite | fdPwrite | fdRead | fdSeek | pathOpen => cases hi
  | argsGet | environGet => exact (quiet_get.bind fun _ => quiet_putStrings ..).settled
  | argsSizesGet | environSizesGet => exact (quiet_get.bind fun _ => quiet_putSizes ..).settled
  | clockResGet | clockTimeGet => exact ((quiet_lookup _).bind fun _ => quiet_put ..).settled
  | randomGet buffer length => exact settled_randomGet buffer length
  | fdAdvise | fdDatasync | fdSync | fdFdstatSetRights | fdFilestatSetTimes =>
    exact (quiet_lookup _).settled
  | fdAllocate | pathLink | pathSymlink | procRaise => exact (quiet_throw _).settled
  | fdClose => exact settled_host (Host.atomic_fdClose ..)
  | fdFdstatGet =>
    exact ((quiet_lookup _).bind fun _ => (quiet_putBytes ..).bind fun _ => (quiet_put ..).bind
      fun _ => (quiet_put ..).bind fun _ => (quiet_put ..).bind fun _ => quiet_put ..).settled
  | fdFdstatSetFlags => exact settled_host (Host.atomic_fdSetAppend ..)
  | fdFilestatGet => exact ((quiet_lookup _).bind fun _ => quiet_putBytes ..).settled
  | fdFilestatSetSize => exact settled_host (Host.atomic_fdSetSize ..)
  | fdPread =>
    exact ((quiet_load _).bind fun _ => (quiet_lookup _).bind fun _ => (quiet_scatter ..).bind
      fun _ => quiet_put ..).settled
  | fdPrestatGet =>
    exact ((quiet_lookup _).bind fun _ => (quiet_putBytes ..).bind fun _ => (quiet_put ..).bind
      fun _ => quiet_put ..).settled
  | fdPrestatDirName =>
    refine ((quiet_lookup _).bind fun _ => ?_).settled
    dsimp only
    split
    · exact (quiet_throw _).bind fun _ => quiet_putBytes ..
    · exact quiet_putBytes ..
  | fdReaddir =>
    exact ((quiet_lookup _).bind fun _ => (quiet_putBytes ..).bind fun _ => quiet_put ..).settled
  | fdRenumber => exact settled_host (Host.atomic_fdRenumber ..)
  | fdTell fd out => exact settled_fdTell fd out
  | pathCreateDirectory =>
    exact (quiet_text ..).bind_settled fun _ => settled_host (Host.atomic_pathCreateDirectory ..)
  | pathFilestatGet =>
    exact ((quiet_text ..).bind fun _ => (quiet_lookup _).bind fun _ => quiet_putBytes ..).settled
  | pathFilestatSetTimes => exact ((quiet_text ..).bind fun _ => quiet_lookup _).settled
  | pathReadlink =>
    exact ((quiet_text ..).bind fun _ => (quiet_lookup _).bind fun _ => (quiet_putBytes ..).bind
      fun _ => quiet_put ..).settled
  | pathRemoveDirectory =>
    exact (quiet_text ..).bind_settled fun _ => settled_host (Host.atomic_pathRemoveDirectory ..)
  | pathRename =>
    exact (quiet_text ..).bind_settled fun _ => (quiet_text ..).bind_settled fun _ =>
      settled_host (Host.atomic_pathRename ..)
  | pathUnlinkFile =>
    exact (quiet_text ..).bind_settled fun _ => settled_host (Host.atomic_pathUnlinkFile ..)
  | pollOneoff | procExit | schedYield => exact (quiet_pure _).settled

/-- The host carried out a call for the import, and its answer could not be stored. -/
def Lost (i : Import) (s s' : GuestState) : Prop :=
  ∃ c r, i.Makes s.memory c ∧ s.host.step c = (.ok r, s'.host) ∧ i.Unplaced s.memory r

theorem step_map_eq_ok {α : Type} {h h' : Host} {call : Host.Call} {reply : Host.Reply}
    {c : HostM α} {mk : α → Host.Reply} (hc : Host.perform call = mk <$> c) :
    h.step call = (.ok reply, h') ↔ ∃ a, c h = .ok a h' ∧ mk a = reply := by
  rw [← HostM.map_eq_ok, ← hc]
  unfold Host.step
  cases Host.perform call h <;> simp

section Storing

variable {α : Type} {s s' : GuestState} {e : Refusal} {a : α} {h : Host} {c : HostM α} {out : Address}
  {k : Nat} {value : α → Nat} {array : Address} {count : UInt32} {data : Bytes}

theorem load_bind_eq_error {β : Type} {g : GuestMemory → Except Errno α} {f : α → GuestM β}
    (herr : (load g >>= f) s = .error e s') :
    s'.host = s.host ∨ ∃ a, g s.memory = .ok a ∧ f a s = .error e s' := by
  obtain hload | ⟨a, s₁, hload, herr⟩ := HostM.bind_eq_error.mp herr
  · exact .inl ((quiet_load g).error hload)
  · obtain ⟨hg, rfl⟩ := load_eq_ok.mp hload
    exact .inr ⟨a, hg, herr⟩

theorem load_bind_fault {β : Type} {g : GuestMemory → Except Errno α} {f : α → GuestM β}
    (hg : g s.memory = .ok a) (herr : f a s = .error e s') : (load g >>= f) s = .error e s' :=
  HostM.bind_eq_error.mpr (.inr ⟨a, s, load_eq_ok.mpr ⟨hg, rfl⟩, herr⟩)

theorem host_bind_fault {β : Type} {f : α → GuestM β} (hok : c s.host = .ok a h)
    (herr : f a { s with host := h } = .error e s') : (host c >>= f) s = .error e s' :=
  HostM.bind_eq_error.mpr (.inr ⟨a, _, host_eq_ok.mpr ⟨h, hok, rfl⟩, herr⟩)

theorem host_put_eq_error {i : Import} {call : Host.Call} {mk : α → Host.Reply}
    (hmakes : i.Makes s.memory call) (hperform : Host.perform call = mk <$> c)
    (hc : HostM.Atomic c) (hplace : ∀ a, s.memory.size < out.toNat + k → i.Unplaced s.memory (mk a))
    (herr : (host c >>= fun a => put out k (value a)) s = .error e s') :
    s'.host = s.host ∨ e = .errno .fault ∧ i.Lost s s' := by
  obtain hstay | ⟨a, h, hok, herr⟩ := host_bind_eq_error hc herr
  · exact .inl hstay
  · obtain ⟨hout, rfl, rfl⟩ := put_eq_error.mp herr
    have hstep : s.host.step call = (.ok (mk a), h) := (step_map_eq_ok hperform).mpr ⟨a, hok, rfl⟩
    exact .inr ⟨rfl, call, mk a, hmakes, hstep, hplace a hout⟩

theorem host_put_fault (hok : c s.host = .ok a h) (hout : s.memory.size < out.toNat + k) :
    (host c >>= fun a => put out k (value a)) s = .error (.errno .fault) { s with host := h } :=
  host_bind_fault hok (put_eq_error.mpr ⟨hout, rfl, rfl⟩)

theorem scatter_put_eq_error {vs : List IoVec} (hvs : s.memory.iovecs array count = .ok vs) :
    (∃ s', (scatter array count data >>= fun n => put out 4 n) s = .error e s') ↔
      e = .errno .fault ∧ (s.memory.size < out.toNat + 4 ∨ s.memory.Overruns data.length vs) := by
  obtain ⟨hsize, hfail⟩ := GuestMemory.scatterAll_spec s.memory data vs
  simp only [HostM.bind_eq_error, put_eq_error]
  unfold scatter GuestMemory.scatter
  rw [hvs]
  dsimp only
  cases hs : s.memory.scatterAll data vs with
  | mk answer m =>
    rw [hs] at hsize hfail
    cases answer with
    | error e' =>
      obtain ⟨hover, rfl⟩ := (hfail e').mp rfl
      simp [hover, eq_comm]
    | ok n =>
      have hfits : ¬ s.memory.Overruns data.length vs := fun hover => by
        cases (hfail .fault).mpr ⟨hover, rfl⟩
      dsimp only at hsize
      rw [← hsize]
      simp only [hfits, or_false, reduceCtorEq, false_or, EStateM.Result.ok.injEq]
      constructor
      · rintro ⟨_, _, _, ⟨rfl, rfl⟩, hout, rfl, -⟩
        exact ⟨rfl, hout⟩
      · rintro ⟨rfl, hout⟩
        exact ⟨_, n, _, ⟨rfl, rfl⟩, hout, rfl, rfl⟩

end Storing

section Lost

variable {s s' : GuestState} {e : Refusal}

theorem lost_call {i : Import} (hi : i.storesAnswer) (herr : i.call s = .error e s') :
    s'.host = s.host ∨ e = .errno .fault ∧ i.Lost s s' := by
  cases i with
  | fdWrite fd array count out =>
    obtain hstay | ⟨data, hg, herr⟩ := load_bind_eq_error herr
    · exact .inl hstay
    · exact host_put_eq_error (.fdWrite hg) rfl (Host.atomic_fdWrite ..) (fun _ hout => hout) herr
  | fdPwrite fd array count offset out =>
    obtain hstay | ⟨data, hg, herr⟩ := load_bind_eq_error herr
    · exact .inl hstay
    · exact host_put_eq_error (.fdPwrite hg) rfl (Host.atomic_fdPwrite ..) (fun _ hout => hout) herr
  | fdRead fd array count out =>
    obtain hstay | ⟨capacity, hc, herr⟩ := load_bind_eq_error herr
    · exact .inl hstay
    obtain ⟨vs, hvs, -⟩ := GuestMemory.capacity_eq_ok.mp hc
    obtain hstay | ⟨data, h, hok, herr⟩ := host_bind_eq_error (Host.atomic_fdRead ..) herr
    · exact .inl hstay
    have hquiet : s'.host = h := ((quiet_scatter ..).bind fun _ => quiet_put ..).error herr
    obtain ⟨he, hout⟩ := (scatter_put_eq_error (s := { s with host := h }) hvs).mp ⟨s', herr⟩
    have hstep : s.host.step (.fdRead fd capacity) = (.ok (.bytes data), s'.host) :=
      (step_map_eq_ok rfl).mpr ⟨data, hquiet ▸ hok, rfl⟩
    exact .inr ⟨he, _, _, .fdRead hc, hstep, hout.imp_right fun hover => ⟨vs, hvs, hover⟩⟩
  | fdSeek fd offset whence out =>
    exact host_put_eq_error .fdSeek rfl (Host.atomic_fdSeek ..) (fun _ hout => hout) herr
  | pathOpen fd path length flags fdflags out =>
    obtain hstay | ⟨name, ht, herr⟩ := load_bind_eq_error herr
    · exact .inl hstay
    · exact host_put_eq_error (.pathOpen ht) rfl (Host.atomic_pathOpen ..) (fun _ hout => hout) herr
  | _ => cases hi

theorem fault_of_lost {i : Import} {c : Host.Call} {r : Host.Reply} {h : Host}
    (hmakes : i.Makes s.memory c) (hstep : s.host.step c = (.ok r, h))
    (hout : i.Unplaced s.memory r) : ∃ s', i.call s = .error (.errno .fault) s' ∧ s'.host = h := by
  cases hmakes with
  | fdWrite hg | fdPwrite hg =>
    obtain ⟨n, hok, rfl⟩ := (step_map_eq_ok rfl).mp hstep
    exact ⟨_, load_bind_fault hg (host_put_fault hok hout), rfl⟩
  | fdRead hc =>
    obtain ⟨data, hok, rfl⟩ := (step_map_eq_ok rfl).mp hstep
    obtain ⟨vs, hvs, -⟩ := GuestMemory.capacity_eq_ok.mp hc
    have hroom := hout.imp_right fun ⟨vs', hvs', hover⟩ => by
      rw [hvs] at hvs'
      exact Except.ok.inj hvs' ▸ hover
    obtain ⟨s', herr⟩ :=
      (scatter_put_eq_error (s := { s with host := h }) hvs).mpr ⟨rfl, hroom⟩
    refine ⟨s', load_bind_fault hc (host_bind_fault hok herr), ?_⟩
    exact ((quiet_scatter ..).bind fun _ => quiet_put ..).error herr
  | fdSeek =>
    obtain ⟨n, hok, rfl⟩ := (step_map_eq_ok rfl).mp hstep
    exact ⟨_, host_put_fault hok hout, rfl⟩
  | pathOpen ht =>
    obtain ⟨n, hok, rfl⟩ := (step_map_eq_ok rfl).mp hstep
    exact ⟨_, load_bind_fault ht (host_put_fault hok hout), rfl⟩

end Lost

section Whole

variable {s s' : GuestState} {e : Refusal}

theorem pollCall_eq_error {input output nevents : Address} {count : UInt32}
    (herr : pollCall input output count nevents s = .error e s') :
    ∃ elapsed, s'.host = { s.host with elapsed } := by
  have hsame {s' : GuestState} (hstay : s'.host = s.host) :
      ∃ elapsed, s'.host = { s.host with elapsed } := ⟨s.host.elapsed, hstay⟩
  unfold pollCall at herr
  split at herr
  · cases herr
    exact hsame rfl
  · obtain hstay | ⟨wanted, -, herr⟩ := load_bind_eq_error herr
    · exact hsame hstay
    obtain hstay | ⟨events, h, hok, herr⟩ :=
      host_bind_eq_error (HostM.sure_modifyGet _).atomic herr
    · exact hsame hstay
    obtain ⟨elapsed, hpoll⟩ := s.host.poll_eq wanted
    rw [HostM.modifyGet_eq_ok.mp hok] at hpoll
    refine ⟨elapsed, ?_⟩
    cases events with
    | none => cases herr
    | some events =>
      have hquiet : s'.host = h :=
        ((quiet_putEvents ..).bind fun _ => (quiet_put ..).bind fun _ => quiet_pure _).error herr
      exact hquiet.trans hpoll

theorem perform_eq_error {i : Import} (herr : i.perform s = .error e s') :
    s'.host = s.host ∨
      ((∃ input output count nevents, i = .pollOneoff input output count nevents) ∧
        ∃ elapsed, s'.host = { s.host with elapsed }) ∨
      e = .errno .fault ∧ i.Lost s s' := by
  unfold perform at herr
  split at herr
  · cases herr
  · next input output count nevents =>
    exact .inr (.inl ⟨⟨input, output, count, nevents, rfl⟩, pollCall_eq_error herr⟩)
  · obtain herr | ⟨_, _, -, herr⟩ := HostM.bind_eq_error.mp herr
    · cases hi : i.storesAnswer with
      | false => exact .inl (settled_call hi herr)
      | true => exact (lost_call hi herr).imp_right .inr
    · cases herr

theorem perform_fault {c : Host.Call} {r : Host.Reply} {i : Import} {h : Host}
    (hmakes : i.Makes s.memory c) (hstep : s.host.step c = (.ok r, h))
    (hout : i.Unplaced s.memory r) : ∃ s', i.perform s = .error (.errno .fault) s' ∧ s'.host = h := by
  obtain ⟨s', herr, hhost⟩ := fault_of_lost hmakes hstep hout
  refine ⟨s', ?_, hhost⟩
  unfold perform
  split
  · cases hmakes
  · cases hmakes
  · exact HostM.bind_eq_error.mpr (.inl herr)

end Whole

section Answers

variable {s s' : GuestState} {i : Import}

theorem callImport_of_ok (hok : i.perform s = .ok .goOn s') :
    GuestRun.callImport true i s = (.ok 0, s') := by
  unfold GuestRun.callImport
  rw [hok, Bool.not_true, Bool.and_false, if_neg Bool.false_ne_true]

theorem callImport_of_error {e : Errno} (herr : i.perform s = .error (.errno e) s') :
    GuestRun.callImport true i s = (.ok e.code, s') := by
  unfold GuestRun.callImport
  rw [herr, Bool.not_true, Bool.and_false, if_neg Bool.false_ne_true]

theorem callImport_of_overlong (herr : i.perform s = .error .overlong s') :
    GuestRun.callImport true i s = (.error .broken, s') := by
  unfold GuestRun.callImport
  rw [herr, Bool.not_true, Bool.and_false, if_neg Bool.false_ne_true]

theorem perform_of_callImport {exported : Bool}
    (h : GuestRun.callImport exported i s = (.ok 0, s')) : i.perform s = .ok .goOn s' := by
  unfold GuestRun.callImport at h
  split at h
  · cases h
  split at h
  · next hok =>
    cases h
    exact hok
  · cases h
  · cases h
  · exact absurd (Except.ok.inj (Prod.mk.inj h).1) (Errno.code_ne_zero _)
  · cases h

theorem callImport_eq_zero (hi : i.perform = i.call >>= fun _ => pure .goOn) :
    GuestRun.callImport true i s = (.ok 0, s') ↔ i.call s = .ok () s' := by
  refine ⟨fun hzero => ?_, fun hcall => callImport_of_ok ?_⟩
  · have hperform := perform_of_callImport hzero
    rw [hi] at hperform
    obtain ⟨u, s₁, hcall, hend⟩ := HostM.bind_eq_ok.mp hperform
    cases hend
    exact hcall
  · rw [hi]
    exact HostM.bind_eq_ok.mpr ⟨(), s', hcall, rfl⟩

end Answers

end Import

namespace GuestRun

/-- An import that fails has changed nothing on the host, except that `poll_oneoff` may have waited
before. Or it is a fault after the host carried out a call with an effect and the answer could not
be stored: then the host is just as that call left it. Whenever it comes to that, it is a fault. -/
theorem callImport_refused (i : Import) (s : GuestState) :
    (∀ memory n s', callImport memory i s = (.ok n, s') → n ≠ 0 →
      s'.host = s.host ∨
        ((∃ input output count nevents, i = .pollOneoff input output count nevents) ∧
          ∃ elapsed, s'.host = { s.host with elapsed }) ∨
        n = Errno.fault.code ∧ i.Lost s s') ∧
    ∀ c r h, i.Makes s.memory c → s.host.step c = (.ok r, h) → i.Unplaced s.memory r →
      ∃ s', callImport true i s = (.ok Errno.fault.code, s') ∧ s'.host = h := by
  refine ⟨fun memory n s' hcall hn => ?_, fun c r h hmakes hstep hout => ?_⟩
  · unfold callImport at hcall
    split at hcall
    · cases hcall
    · split at hcall
      · cases hcall
        exact absurd rfl hn
      · cases hcall
      · cases hcall
      · next e t herr =>
        cases hcall
        obtain hstay | hwait | ⟨he, hlost⟩ := Import.perform_eq_error herr
        · exact .inl hstay
        · exact .inr (.inl hwait)
        · cases he
          exact .inr (.inr ⟨rfl, hlost⟩)
      · cases hcall
  · obtain ⟨s', herr, hhost⟩ := Import.perform_fault hmakes hstep hout
    refine ⟨s', ?_, hhost⟩
    unfold callImport
    rw [herr]
    simp

theorem callImport_refused_fdSeek :
    let h := (Host.fresh [] [] [⟨".", .file "b" [1, 2] .empty⟩] .capture .discard 10 none).runCalls
      [.pathOpen 3 "b" {} false]
    let s : GuestState := ⟨{ bytes := [], untouched := 12 }, h⟩
    (∃ s', callImport true (.fdSeek 9 2 0 0) s = (.ok 8, s') ∧ s'.host = h) ∧
      ∃ s', callImport true (.fdSeek 4 2 0 8) s = (.ok 21, s') ∧
        s'.host = (h.step (.fdSeek 4 2 0)).2 := by
  intro h s
  have hclosed : callImport true (.fdSeek 9 2 0 0) s = (.ok 8, s) := rfl
  have hrefused := (callImport_refused (.fdSeek 9 2 0 0) s).1 true 8 s hclosed (by decide)
  have hfault := (callImport_refused (.fdSeek 4 2 0 8) s).2 (.fdSeek 4 2 0) (.offset 2)
  have hbeyond : 12 < 8 + 8 := by decide
  refine ⟨⟨s, hclosed, ?_⟩, hfault _ .fdSeek rfl hbeyond⟩
  obtain hstay | ⟨⟨_, _, _, _, hpoll⟩, -⟩ | ⟨hcode, -⟩ := hrefused
  · exact hstay
  · cases hpoll
  · exact absurd hcode (by decide)

theorem callImport_fault_keeps_effect :
    let m : GuestMemory := { bytes := [8, 0, 0, 0, 1, 0, 0, 0, 0x61], untouched := 65527 }
    let h := Host.fresh [] [] [⟨".", .file "b" [1, 2] .empty⟩] .capture .discard 10 none
    let h' := h.runCalls [.pathOpen 3 "b" {} false]
    let wrote := callImport true (.fdWrite 1 0 1 65534) ⟨m, h⟩
    let opened := callImport true (.pathOpen 3 8 1 1 0 65534) ⟨m, h⟩
    let read := callImport true (.fdRead 4 0 1 65534) ⟨m, h'⟩
    let sought := callImport true (.fdSeek 4 2 0 65530) ⟨m, h'⟩
    (wrote.1.toOption = some 21 ∧ h.stdout.captured = "" ∧
        wrote.2.host.stdout.captured = "a") ∧
      (opened.1.toOption = some 21 ∧ h.nodeAt? 0 ["a"] = none ∧ h.fds.get? 4 = none ∧
        opened.2.host.nodeAt? 0 ["a"] = some (.file []) ∧
        opened.2.host.fds.get? 4 = some (.file 0 ["a"] 0 false)) ∧
      h'.fds.get? 4 = some (.file 0 ["b"] 0 false) ∧
      (read.1.toOption = some 21 ∧
        read.2.host.fds.get? 4 = some (.file 0 ["b"] 1 false)) ∧
      sought.1.toOption = some 21 ∧
        sought.2.host.fds.get? 4 = some (.file 0 ["b"] 2 false) := by
  decide +kernel

end GuestRun

end Buildbox
