import LocaleLift.Text.Space
import LocaleLift.Literal

/-! The texts found so far, filed by namespace, and the terms that all namespaces share. -/
namespace LocaleLift

/-- The terms that are filed in one namespace wherever they are found. -/
structure CommonTerms where
  terms : List Text
  /-- The namespace they are filed in. -/
  ns : Text
  trimmed : ∀ t ∈ terms, Text.trim t = t
  nodup : terms.Nodup
  deriving DecidableEq, Repr

private theorem nodup_eraseDups : (ts : List Text) → ts.eraseDups.Nodup
  | [] => List.nodup_nil
  | t :: ts => by
    rw [List.eraseDups_cons]
    refine List.nodup_cons.mpr ⟨?_, nodup_eraseDups _⟩
    rw [List.mem_eraseDups]
    simp
termination_by ts => ts.length
decreasing_by simpa using Nat.lt_succ_of_le (List.length_filter_le _ ts)

private theorem eraseDups_of_nodup {ts : List Text} (h : ts.Nodup) : ts.eraseDups = ts := by
  induction ts with
  | nil => rfl
  | cons t ts ih =>
    obtain ⟨ht, hts⟩ := List.nodup_cons.mp h
    have hkeep : ts.filter (fun u => !u == t) = ts := by
      rw [List.filter_eq_self]
      intro u hu
      have : u ≠ t := fun e => ht (e ▸ hu)
      simpa using this
    rw [List.eraseDups_cons, hkeep, ih hts]

namespace CommonTerms

def ofList (terms : List Text) (ns : Text) : CommonTerms where
  terms := (terms.map Text.trim).eraseDups
  ns := ns
  trimmed t ht := by
    obtain ⟨u, _, rfl⟩ := List.mem_map.mp (List.mem_eraseDups.mp ht)
    exact Text.trim_trim u
  nodup := nodup_eraseDups _

/-- Trimming common terms once more changes nothing. -/
@[simp] theorem ofList_terms (c : CommonTerms) : ofList c.terms c.ns = c := by
  have hmap : c.terms.map Text.trim = c.terms := by
    rw [List.map_congr_left c.trimmed, List.map_id']
  obtain ⟨terms, ns, trimmed, nodup⟩ := c
  simp only [ofList, hmap, eraseDups_of_nodup nodup]

def isCommon (c : CommonTerms) (text : Text) : Bool :=
  c.terms.contains (Text.trim text)

/-- The namespace a text is filed in: common terms have their own. -/
def resolve (c : CommonTerms) (ns text : Text) : Text :=
  if c.isCommon text then c.ns else ns

def keyFor (c : CommonTerms) (ns text : Text) : Text :=
  c.resolve ns text ++ "." ++ text

end CommonTerms

/-- A bucket is a namespace and the texts filed under it. -/
abbrev Bucket := Text × List Text

namespace Bucket

/-- Put a text into the bucket of a namespace, unless it is there. -/
def file (ns text : Text) : List Bucket → List Bucket
  | [] => [(ns, [text])]
  | (n, ts) :: es =>
    if n = ns then (n, if ts.contains text then ts else ts ++ [text]) :: es
    else (n, ts) :: file ns text es

/-- The namespaces stay, and a new one comes last. -/
theorem map_fst_file (ns text : Text) (es : List Bucket) :
    (file ns text es).map (·.1) =
      if ns ∈ es.map (·.1) then es.map (·.1) else es.map (·.1) ++ [ns] := by
  induction es with
  | nil => rfl
  | cons e es ih =>
    obtain ⟨n, ts⟩ := e
    by_cases h : n = ns
    · simp [file, h]
    · have h' : ¬ ns = n := fun e => h e.symm
      simp only [file, if_neg h, List.map_cons, ih, List.mem_cons, h', false_or]
      split <;> rfl

private theorem nodup_file {es : List Bucket} (ns text : Text) (h : (es.map (·.1)).Nodup) :
    ((file ns text es).map (·.1)).Nodup := by
  rw [map_fst_file]
  split
  · exact h
  · rename_i hns
    rw [List.nodup_append]
    refine ⟨h, by simp, fun a ha b hb => ?_⟩
    rw [List.mem_singleton.mp hb]
    exact fun e => hns (e ▸ ha)

private theorem sound_file {es : List Bucket} (ns text : Text)
    (h : ∀ e ∈ es, e.2 ≠ [] ∧ e.2.Nodup) : ∀ e ∈ file ns text es, e.2 ≠ [] ∧ e.2.Nodup := by
  induction es with
  | nil => simp [file]
  | cons e es ih =>
    obtain ⟨n, ts⟩ := e
    obtain ⟨hts, hes⟩ := List.forall_mem_cons.mp h
    rw [file]
    split
    · refine List.forall_mem_cons.mpr ⟨?_, hes⟩
      split
      · exact hts
      · rename_i hnew
        have hnew : text ∉ ts := by simpa using hnew
        refine ⟨by simp, List.nodup_append.mpr ⟨hts.2, by simp, fun a ha b hb => ?_⟩⟩
        rw [List.mem_singleton.mp hb]
        exact fun e => hnew (e ▸ ha)
    · exact List.forall_mem_cons.mpr ⟨hts, ih hes⟩

end Bucket

/-- A registry files texts by namespace; namespaces and texts keep the order of their
first entry. -/
structure Registry where
  common : CommonTerms
  entries : List Bucket
  nodup : (entries.map (·.1)).Nodup
  sound : ∀ e ∈ entries, e.2 ≠ [] ∧ e.2.Nodup
  deriving DecidableEq, Repr

namespace Registry

def empty (common : CommonTerms) : Registry :=
  ⟨common, [], List.nodup_nil, by simp⟩

def insert (r : Registry) (ns text : Text) : Registry where
  common := r.common
  entries := Bucket.file ns text r.entries
  nodup := Bucket.nodup_file ns text r.nodup
  sound := Bucket.sound_file ns text r.sound

def record (r : Registry) (ns text : Text) : Registry :=
  r.insert (r.common.resolve ns text) text

def enter (r : Registry) (ns text : Text) : Registry × Text :=
  let target := r.common.resolve ns text
  (r.insert target text, target ++ "." ++ text)

def recordAll (r : Registry) (ns : Text) (texts : List Text) : Registry :=
  texts.foldl (fun r t => r.record ns t) r

def fork (r : Registry) : Registry :=
  empty (.ofList r.common.terms r.common.ns)

/-- A fork has the same common terms, although they are trimmed again. -/
@[simp] theorem fork_eq (r : Registry) : r.fork = empty r.common := by
  rw [fork, CommonTerms.ofList_terms]

def toList (r : Registry) : List (Text × Text) :=
  r.entries.flatMap fun (ns, ts) => ts.map fun t => (ns, t)

def merge (r other : Registry) : Registry :=
  other.toList.foldl (fun r (ns, t) => r.insert ns t) r

def texts (r : Registry) (ns : Text) : List Text :=
  (r.entries.lookup ns).getD []

def contains (r : Registry) (ns text : Text) : Bool :=
  (r.texts ns).contains text

def size (r : Registry) : Nat :=
  r.entries.foldr (fun (_, ts) n => ts.length + n) 0

def namespaces (r : Registry) : List Text :=
  Text.sort (r.entries.map (·.1))

/-- The namespaces in increasing order, each with its texts in increasing order. -/
def serialize (r : Registry) : List (Text × List Text) :=
  (r.entries.mergeSort fun a b => Text.le a.1 b.1).map fun (ns, ts) => (ns, Text.sort ts)

/-- A short description of a registry: its namespaces and how many texts it holds. -/
def summary (r : Registry) : Text :=
  "<LocaleRegistry namespaces=[" ++ Text.join ", " (r.namespaces.map Text.quoted) ++
    "] entries=" ++ Text.ofNat r.size ++ ">"

end Registry

/-- What one unit is localized with: its namespace, the common terms, and the name of the function
that looks keys up. -/
structure Scope where
  ns : Text
  common : CommonTerms
  function : Text
  deriving DecidableEq, Repr

/-- A call of the look-up function with a key, written as a literal in the given quotes. -/
def lookupCall (key function quote : Text) : Text :=
  function ++ "(" ++ Literal.quote quote key ++ ")"

def Scope.call (s : Scope) (quote text : Text) : Text :=
  lookupCall (s.common.keyFor s.ns text) s.function quote

end LocaleLift
