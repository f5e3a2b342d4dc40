import Buildbox.Message.Codec
import Buildbox.Proofs.Json.ReadBack

/-! Whatever crosses a boundary is read back from its JSON as it was, and no two messages have the
same JSON. -/

namespace Buildbox

namespace NameMap

variable {α : Type} {m : NameMap α}

theorem place_last {name : String} {a : α} {es : List (String × α)} (h : ∀ e ∈ es, e.1 < name) :
    place name a es = es ++ [(name, a)] := by
  induction es with
  | nil => rfl
  | cons e es ih =>
    obtain ⟨n, b⟩ := e
    have hn : n < name := h (n, b) List.mem_cons_self
    have hnot : ¬ name < n := fun hlt => String.lt_irrefl n (String.lt_trans hn hlt)
    have hne : name ≠ n := fun heq => String.lt_irrefl n (heq ▸ hn)
    rw [place, if_neg hnot, if_neg hne, ih fun e he => h e (List.mem_cons_of_mem _ he)]
    rfl

theorem entries_insertAll {es : List (String × α)}
    (h : (m.entries ++ es).Pairwise fun a b => a.1 < b.1) :
    (m.insertAll es).entries = m.entries ++ es := by
  induction es generalizing m with
  | nil => exact (List.append_nil _).symm
  | cons e es ih =>
    have hbelow : ∀ f ∈ m.entries, f.1 < e.1 := fun f hf =>
      (List.pairwise_append.mp h).2.2 f hf e List.mem_cons_self
    have hentries : (m.insert e.1 e.2).entries = m.entries ++ [e] := place_last hbelow
    have hlater := @ih (m.insert e.1 e.2)
    rw [hentries, List.append_assoc] at hlater
    exact hlater h

theorem ofList_entries : ofList m.entries = m := by
  have h : (ofList m.entries).entries = m.entries := entries_insertAll m.sorted
  obtain ⟨es, hes⟩ := m
  cases hm : ofList es with
  | mk fs hfs =>
    rw [hm] at h
    cases h
    rfl

end NameMap

namespace Json

section Read

theorem mapM_of_forall {α β : Type} {f : β → Option α} {g : α → β} (h : ∀ a, f (g a) = some a)
    (as : List α) : (as.map g).mapM f = some as := by
  induction as with
  | nil => rfl
  | cons a as ih =>
    rw [List.map_cons, List.mapM_cons, h, ih]
    rfl

theorem asNatBelow?_nat {n bound : Nat} (h : n < bound) :
    (nat n).asNatBelow? bound = some n := by
  exact if_pos h

theorem asWord?_nat (n : UInt64) : (nat n.toNat).asWord? = some n := by
  rw [asWord?, asNatBelow?_nat n.toNat_lt_size]
  exact congrArg some UInt64.ofNat_toNat

theorem asBytes?_bytes (bs : Bytes) : (bytes bs).asBytes? = some bs := by
  refine mapM_of_forall (fun b => ?_) bs
  rw [asNatBelow?_nat b.toNat_lt_size]
  exact congrArg some UInt8.ofNat_toNat

theorem asNameMap?_texts (m : NameMap String) :
    asNameMap? asString? (.obj (m.entries.map fun (name, text) => (name, .str text))) =
      some m := by
  have hpairs := mapM_of_forall (f := fun (key, v) => (asString? v).map (key, ·))
    (g := fun (name, text) => (name, .str text)) (fun _ => rfl) m.entries
  rw [asNameMap?]
  simp only [hpairs, Option.bind_eq_bind, Option.bind_some, NameMap.ofList_entries]

theorem asIntIn?_int32 (n : Int32) :
    (Json.int n.toInt).asIntIn? Int32.minValue.toInt Int32.maxValue.toInt = some n.toInt := by
  exact if_pos ⟨n.minValue_le_toInt, n.toInt_le⟩

end Read

section Plain

variable {depth : Nat}

@[simp] theorem plain_null : Plain depth .null := .null depth

@[simp] theorem plain_bool (b : Bool) : Plain depth (.bool b) := .bool depth b

@[simp] theorem plain_str (s : String) : Plain depth (.str s) := .str depth s

@[simp] theorem plain_arr {items : List Json} :
    Plain (depth + 1) (.arr items) ↔ ∀ v ∈ items, Plain depth v :=
  ⟨fun | .arr _ _ each => each, .arr depth items⟩

@[simp] theorem plain_obj {members : List (String × Json)} :
    Plain (depth + 1) (.obj members) ↔ ∀ m ∈ members, Plain depth m.2 :=
  ⟨fun | .obj _ _ each => each, .obj depth members⟩

theorem plain_nat {n : Nat} (h : n < UInt64.size) : Plain depth (nat n) :=
  .int depth n (Int.le_trans (by decide) (Int.natCast_nonneg n)) (Int.ofNat_lt.mpr h)

@[simp] theorem plain_word (n : UInt64) : Plain depth (nat n.toNat) :=
  plain_nat n.toNat_lt_size

@[simp] theorem plain_int32 (n : Int32) : Plain depth (.int n.toInt) := by
  have hlow := n.minValue_le_toInt
  have hhigh := n.toInt_le
  refine .int depth _ (Int.le_trans (by decide) hlow) (Int.lt_of_le_of_lt hhigh (by decide))

@[simp] theorem plain_bytes (bs : Bytes) : Plain (depth + 1) (bytes bs) := by
  refine plain_arr.mpr fun v hv => ?_
  obtain ⟨b, -, rfl⟩ := List.mem_map.mp hv
  exact plain_nat (Nat.lt_trans b.toNat_lt_size (by decide))

@[simp] theorem plain_texts (m : NameMap String) :
    Plain (depth + 1) (.obj (m.entries.map fun (name, text) => (name, .str text))) := by
  refine plain_obj.mpr fun member hmember => ?_
  obtain ⟨e, -, rfl⟩ := List.mem_map.mp hmember
  exact plain_str e.2

end Plain

end Json

namespace JsonForm

structure Exact (α : Type) [JsonForm α] : Prop where
  read : ∀ x : α, ofJson? (toJson x) = some x
  plain : ∀ x : α, Json.Plain Json.depthLimit (toJson x)

/-- Holds when values are read back from their form and from its text, and different values differ
in both. -/
structure Faithful (α : Type) [JsonForm α] : Prop where
  form : ∀ x : α, ofJson? (toJson x) = some x
  text : ∀ x : α, (Json.parse? (toJson x).render).bind ofJson? = some x
  form_injective : Function.Injective (toJson : α → Json)
  text_injective : Function.Injective fun x : α => (toJson x).render

theorem injective_of_read {α β : Type} {write : α → β} {read : β → Option α}
    (h : ∀ x, read (write x) = some x) : Function.Injective write := by
  intro x y hxy
  have hread := congrArg read hxy
  rw [h x, h y] at hread
  exact Option.some.inj hread

theorem Exact.faithful {α : Type} [JsonForm α] (h : Exact α) : Faithful α := by
  have htext : ∀ x : α, (Json.parse? (toJson x).render).bind ofJson? = some x := by
    intro x
    rw [Json.parse?_render (h.plain x), Option.bind_some, h.read x]
  have hinjective : Function.Injective fun x : α => (toJson x).render :=
    @injective_of_read α String _ (fun text => (Json.parse? text).bind ofJson?) htext
  exact ⟨h.read, htext, injective_of_read h.read, hinjective⟩

end JsonForm

section Messages

open Json
open JsonForm (Exact Faithful)

variable {depth : Nat}

theorem TranspileRequest.exact : Exact TranspileRequest where
  read _ := rfl
  plain r := by simp [JsonForm.toJson, toJson, depthLimit]

theorem TranspileResponse.exact : Exact TranspileResponse where
  read r := by cases r <;> rfl
  plain r := by cases r <;> simp [JsonForm.toJson, toJson, depthLimit]

theorem CompileRequest.exact : Exact CompileRequest where
  read r := by
    have hfiles := asNameMap?_texts r.files
    -- With the names looked up, only the form of the field is left to be read.
    change (asNameMap? asString? (.obj
      (r.files.entries.map fun (name, text) => (name, .str text)))).bind
        (fun files => some (CompileRequest.mk files)) = _
    rw [hfiles]
    rfl
  plain r := plain_obj.mpr (List.forall_mem_singleton.mpr (plain_texts r.files))

theorem CompileResponse.exact : Exact CompileResponse where
  read r := by
    rcases r with text | artifact | _ | text
    · rfl
    · have hartifact := asBytes?_bytes artifact
      change (asBytes? (bytes artifact)).bind _ = _
      rw [hartifact]
      rfl
    · rfl
    · rfl
  plain r := by
    rcases r with text | artifact | _ | text <;> simp [JsonForm.toJson, toJson, depthLimit]

theorem ExecuteRequest.exact : Exact ExecuteRequest where
  read r := by
    have hartifact := asBytes?_bytes r.artifact
    change (asBytes? (bytes r.artifact)).bind _ = _
    rw [hartifact]
    rfl
  plain r := by simp [JsonForm.toJson, toJson, depthLimit]

theorem ExecuteResponse.exact : Exact ExecuteResponse where
  read r := by cases r <;> rfl
  plain r := by cases r <;> simp [JsonForm.toJson, toJson, depthLimit]

theorem Transpiled.exact : Exact Transpiled where
  read _ := rfl
  plain t := by simp [JsonForm.toJson, toJson, depthLimit]

theorem Channel.exact : Exact Channel where
  read c := by cases c <;> rfl
  plain c := by cases c <;> simp [JsonForm.toJson, toJson]

theorem OutputChunk.exact : Exact OutputChunk where
  read c := by
    obtain ⟨channel, text⟩ := c
    cases channel <;> rfl
  plain c := by
    obtain ⟨channel, text⟩ := c
    cases channel <;> simp [JsonForm.toJson, toJson, Channel.toJson, depthLimit]

theorem ExitStatus.exact : Exact ExitStatus where
  read s := by
    rcases s with code | message | afterMs
    · have hcode := asIntIn?_int32 code
      change ((Json.int code.toInt).asIntIn? _ _).bind _ = _
      rw [hcode]
      exact congrArg (some ∘ exited) (Int32.ofInt_toInt code)
    · rfl
    · have hafter := asWord?_nat afterMs
      change (asWord? (nat afterMs.toNat)).bind _ = _
      rw [hafter]
      rfl
  plain s := by
    rcases s with code | message | afterMs
    · simp [JsonForm.toJson, toJson, depthLimit]
    · simp [JsonForm.toJson, toJson, depthLimit]
    · change Plain 127 (.obj [("kind", .str "timed_out"), ("after_ms", nat afterMs.toNat)])
      simp

theorem PipelineState.plain_toJson (s : PipelineState) : Plain (depth + 1) s.toJson := by
  cases s with
  | transpiling done total =>
    change Plain (depth + 1) (.obj
      [("state", .str "transpiling"), ("done", nat done.toNat), ("total", nat total.toNat)])
    simp
  | _ => simp [toJson]

theorem PipelineState.exact : Exact PipelineState where
  read s := by
    cases s with
    | transpiling done total =>
      have hdone := asWord?_nat done
      have htotal := asWord?_nat total
      change (asWord? (nat done.toNat)).bind (fun done =>
        (asWord? (nat total.toNat)).bind fun total => some (transpiling done total)) = _
      rw [hdone, Option.bind_some, htotal]
      rfl
    | _ => rfl
  plain := plain_toJson

theorem Step.plain_toJson (s : Step) : Plain depth s.toJson := by
  cases s <;> simp [toJson]

theorem Step.exact : Exact Step where
  read s := by cases s <;> rfl
  plain := plain_toJson

theorem PipelineEvent.plain_toJson (e : PipelineEvent) : Plain (depth + 2) e.toJson := by
  have hcarrying : ∀ event data, Plain (depth + 1) data →
      Plain (depth + 2) (.obj [("event", .str event), ("data", data)]) := by
    intro event data h
    simp [h]
  cases e with
  | status state => exact hcarrying "status" _ state.plain_toJson
  | stepStarted step => exact hcarrying "step_started" _ step.plain_toJson
  | stepFinished step ok elapsedMs =>
    refine hcarrying "step_finished"
      (.obj [("step", step.toJson), ("ok", .bool ok), ("elapsed_ms", nat elapsedMs.toNat)]) ?_
    simp [step.plain_toJson]
  | transpiled filename content => exact hcarrying "transpiled" _ (by simp)
  | diagnostic line => exact hcarrying "diagnostic" _ (plain_str line)
  | compiled size => exact hcarrying "compiled" (.obj [("bytes", nat size.toNat)]) (by simp)
  | log line => exact hcarrying "log" _ (plain_str line)
  | preview text => exact hcarrying "preview" _ (plain_str text)
  | done => simp [toJson]

theorem PipelineEvent.exact : Exact PipelineEvent where
  read e := by
    cases e with
    | status state =>
      have hstate : PipelineState.read? false state.toJson = some state :=
        PipelineState.exact.read state
      change (PipelineState.read? false state.toJson).bind _ = _
      rw [hstate]
      rfl
    | stepStarted step => cases step <;> rfl
    | stepFinished step ok elapsedMs =>
      have helapsed := asWord?_nat elapsedMs
      have hstep : Step.read? false step.toJson = some step := Step.exact.read step
      change (Step.read? false step.toJson).bind (fun step => (some ok).bind fun ok =>
        (asWord? (nat elapsedMs.toNat)).bind fun n => some (stepFinished step ok n)) = _
      rw [hstep, Option.bind_some, Option.bind_some, helapsed]
      rfl
    | compiled size =>
      have hsize := asWord?_nat size
      change (asWord? (nat size.toNat)).bind _ = _
      rw [hsize]
      rfl
    | _ => rfl
  plain := plain_toJson

/-- Every message that crosses a boundary is read back from its JSON as it was, and different
messages have different JSON. -/
theorem messages_faithful :
    Faithful TranspileRequest ∧ Faithful TranspileResponse ∧ Faithful CompileRequest ∧
      Faithful CompileResponse ∧ Faithful ExecuteRequest ∧ Faithful ExecuteResponse ∧
      Faithful PipelineEvent ∧ Faithful PipelineState ∧ Faithful Step ∧ Faithful ExitStatus ∧
      Faithful OutputChunk ∧ Faithful Channel ∧ Faithful Transpiled :=
  ⟨TranspileRequest.exact.faithful, TranspileResponse.exact.faithful,
    CompileRequest.exact.faithful, CompileResponse.exact.faithful, ExecuteRequest.exact.faithful,
    ExecuteResponse.exact.faithful, PipelineEvent.exact.faithful, PipelineState.exact.faithful,
    Step.exact.faithful, ExitStatus.exact.faithful, OutputChunk.exact.faithful,
    Channel.exact.faithful, Transpiled.exact.faithful⟩

end Messages

end Buildbox
