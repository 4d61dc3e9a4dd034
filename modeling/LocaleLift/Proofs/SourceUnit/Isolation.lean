import LocaleLift.SourceUnit
import LocaleLift.Proofs.Registry.Filing

/-! Sources do not disturb each other: one that fails files nothing, one that succeeds files its own
texts and no others, and the order of sources shows neither in the results nor in the tables. -/
namespace LocaleLift.SourceUnit

/-- A source with the namespace of its texts. -/
structure Job where
  path : Text
  text : Text
  ns : Text
  deriving DecidableEq, Repr

def Job.process [Script.Parser] (r : Registry) (function : Text) (j : Job) : Outcome :=
  SourceUnit.process r j.ns function j.path j.text

/-- Localize sources one after the other into one registry. Those that fail are passed over. -/
def processAll [Script.Parser] (function : Text) : Registry → List Job → List
    (Except Failure Text) × Registry
  | r, [] => ([], r)
  | r, j :: js =>
    let o := j.process r function
    let (results, last) := processAll function o.registry js
    (o.result :: results, last)

/-- The result depends on the common terms, not on what has been filed. -/
theorem process_result [Script.Parser] (r : Registry) (ns function path text : Text) :
    (process r ns function path text).result =
      (localize ⟨ns, r.common, function⟩ path text).result := by
  simp only [process, Registry.fork_eq, Registry.empty]
  split
  · rename_i h
    rw [h]
  · rename_i h
    rw [h]

theorem process_result_congr [Script.Parser] {r s : Registry} (h : s.common = r.common)
    (ns function path text : Text) :
    (process s ns function path text).result = (process r ns function path text).result := by
  rw [process_result, process_result, h]

theorem process_ok [Script.Parser] {r : Registry} {ns function path text out : Text}
    (h : (process r ns function path text).result = .ok out) :
    (process r ns function path text).registry =
      r.merge ((Registry.empty r.common).recordAll ns
        (localize ⟨ns, r.common, function⟩ path text).texts) := by
  rw [process_result] at h
  simp only [process, Registry.fork_eq, Registry.empty, h]

theorem process_error [Script.Parser] {r : Registry} {ns function path text : Text} {e : Failure}
    (h : (process r ns function path text).result = .error e) :
    (process r ns function path text).registry = r := by
  rw [process_result] at h
  simp only [process, Registry.fork_eq, Registry.empty, h]

theorem process_keeps [Script.Parser] (r : Registry) (ns function path text : Text) :
    (process r ns function path text).registry.Keeps r := by
  cases h : (process r ns function path text).result with
  | error e => rw [process_error h]; exact .refl r
  | ok out => rw [process_ok h]; exact .merge r _

/-- What a source files does not depend on what has been filed before it. -/
theorem mem_process_registry [Script.Parser] {r : Registry} {ns function path text : Text}
    {p : Text × Text} :
    p ∈ (process r ns function path text).registry.toList ↔
      p ∈ r.toList ∨ p ∈ (process (.empty r.common) ns function path text).registry.toList := by
  have hresult := process_result_congr (s := .empty r.common) (r := r) rfl ns function path text
  cases h : (process r ns function path text).result with
  | error e =>
    rw [process_error h, process_error (hresult.trans h)]
    simp
  | ok out =>
    rw [process_ok h, process_ok (hresult.trans h)]
    simp only [Registry.mem_toList_merge, Registry.mem_toList_empty, false_or]
    rfl

/-- A source that fails leaves the registry as it was, whatever had been found before the failure.
One that succeeds leaves every old entry in its place and adds exactly what it files in an empty
fork. -/
theorem process_registry [Script.Parser] (r : Registry) (ns function path text : Text) :
    match (process r ns function path text).result with
    | .error _ => (process r ns function path text).registry = r
    | .ok out =>
      (process r.fork ns function path text).result = .ok out ∧
      (process r ns function path text).registry.Keeps r ∧
      ∀ p, p ∈ (process r ns function path text).registry.toList ↔
        p ∈ r.toList ∨ p ∈ (process r.fork ns function path text).registry.toList := by
  have hfork := Registry.fork_eq r
  split
  · rename_i e h
    exact process_error h
  · rename_i out h
    rw [hfork]
    refine ⟨?_, process_keeps r ns function path text, fun p => mem_process_registry⟩
    rw [← h]
    exact process_result_congr (r := r) (s := .empty r.common) rfl ns function path text

private theorem processAll_results [Script.Parser] (function : Text) (r : Registry) (js : List Job)
    :
    (processAll function r js).1 = js.map fun j => (j.process r function).result := by
  induction js generalizing r with
  | nil => rfl
  | cons j js ih =>
    have hkeeps : (j.process r function).registry.common = r.common :=
      (process_keeps r j.ns function j.path j.text).common
    simp only [processAll, ih, List.map_cons, List.cons.injEq, true_and]
    exact List.map_congr_left fun k _ => process_result_congr hkeeps k.ns function k.path k.text

private theorem mem_processAll [Script.Parser] {function : Text} {r : Registry} {js : List Job}
    {p : Text × Text} :
    p ∈ (processAll function r js).2.toList ↔
      p ∈ r.toList ∨
        ∃ j ∈ js, p ∈ (j.process (.empty r.common) function).registry.toList := by
  induction js generalizing r with
  | nil => simp [processAll]
  | cons j js ih =>
    have hkeeps : (j.process r function).registry.common = r.common :=
      (process_keeps r j.ns function j.path j.text).common
    have hstep : p ∈ (j.process r function).registry.toList ↔
        p ∈ r.toList ∨ p ∈ (j.process (.empty r.common) function).registry.toList :=
      mem_process_registry
    simp only [processAll, ih, hkeeps, hstep, List.exists_mem_cons_iff, or_assoc]

/-- The result of a source is the same in every registry with the same common terms, so in every
order of the sources, and every order ends in the same tables. -/
theorem processAll_perm [Script.Parser] (function : Text) (r : Registry) {js ks : List Job}
    (h : js.Perm ks) :
    ∃ result : Job → Except Failure Text,
      (∀ (s : Registry) (j : Job), s.common = r.common →
        (j.process s function).result = result j) ∧
      (processAll function r js).1 = js.map result ∧
      (processAll function r ks).1 = ks.map result ∧
      (processAll function r js).2.serialize = (processAll function r ks).2.serialize := by
  refine ⟨fun j => (j.process r function).result, ?_, ?_, ?_, ?_⟩
  · intro s j hs
    exact process_result_congr hs j.ns function j.path j.text
  · exact processAll_results function r js
  · exact processAll_results function r ks
  · apply Registry.serialize_congr
    intro p
    rw [mem_processAll, mem_processAll]
    simp only [h.mem_iff]

/-- Two sources with a text in common and one that fails between them, forwards and backwards. -/
theorem processAll_reverse_three :
    let first : Job := ⟨"a.vue", "<template>中文</template>", "first"⟩
    let broken : Job := ⟨"b.txt", "中文", "broken"⟩
    let last : Job := ⟨"c.vue", "<template title='中文'>中</template>", "last"⟩
    let start := Registry.empty (.ofList ["中文 "] "common")
    [first, broken, last].Perm [last, broken, first] ∧
      (processAll "$t" start [first, broken, last]).2.serialize =
        (processAll "$t" start [last, broken, first]).2.serialize := by
  intro first broken last start
  have hperm : [first, broken, last].Perm [last, broken, first] :=
    (List.reverse_perm [last, broken, first])
  obtain ⟨_, _, _, _, hserialize⟩ := processAll_perm "$t" start hperm
  exact ⟨hperm, hserialize⟩

end LocaleLift.SourceUnit
