import LocaleLift.Config
import Mathlib

/-! What loading a configuration comes to: each setting is that of the file or the default one, unless
the patterns of the file are no list. -/
namespace LocaleLift.Config

/-- The path at which a configuration is looked for. -/
def path (directory : Path) (file : Option Path) : Path :=
  match file with
  | some f => directory.append f
  | none => directory.child fileName

/-- The members of the object in a file, if it holds one. -/
def members? (t : FileTree) (p : Path) : Option (List (Text × JsonValue)) :=
  match valueIn? t p with
  | some (.object members) => some members
  | _ => none

/-- The setting that a value becomes: patterns are listed one by one. -/
def stored (name : Text) (v : JsonValue) : JsonValue :=
  if name = "ignore" then .array (v.parts?.getD []) else v

/-- A setting, as members of an object change it. A null changes nothing. -/
def given (members : List (Text × JsonValue)) (name : Text) (v : JsonValue) : JsonValue :=
  match Assoc.get? members name with
  | some w => if w.isNull then v else stored name w
  | none => v

/-- The patterns, if members of an object give any, can be listed one by one. -/
def ListsPatterns (members : List (Text × JsonValue)) : Prop :=
  ∀ v, Assoc.get? members "ignore" = some v → v.isNull = false → v.parts?.isSome = true

section Override

variable {c : Config} {name : Text} {v : JsonValue} {changes : List (Text × JsonValue)}

/-- The names of settings are told apart by their spelling. -/
private theorem ofString_inj {s t : String} : Text.ofString s = Text.ofString t ↔ s = t := by
  rw [Text.ofString, Text.ofString, List.map_inj_right fun _ _ => CodePoint.scalar.inj,
    String.toList_inj]

/-- One setting is changed and the others stay, unless the value is no list of patterns. -/
private theorem set_of_mem (c : Config) (v : JsonValue) (hname : name ∈ names) :
    if name = "ignore" ∧ v.parts? = none then c.set name v = .error ⟨⟩
    else ∃ c', c.set name v = .ok c' ∧
      c'.toPairs = c.toPairs.map fun p => (p.1, if p.1 = name then stored name v else p.2) := by
  simp only [names, toPairs, List.map_cons, List.map_nil, List.mem_cons, List.not_mem_nil,
    or_false] at hname
  rcases hname with rfl | rfl | rfl | rfl | rfl | rfl | rfl | rfl
  case inr.inr.inr.inr.inr.inr.inl =>
    cases hparts : v.parts? with
    | none => simp [set, hparts, ofString_inj]
    | some parts => simp [set, hparts, ofString_inj, toPairs, stored]
  all_goals simp [set, ofString_inj, toPairs, stored]

private theorem given_cons {w : JsonValue} {key : Text} : given ((name, v) :: changes) key w =
    if name = key then (if v.isNull then w else stored key v) else given changes key w := by
  rw [given, Assoc.get?]
  split
  · rename_i h
    split at h
    · rename_i hkey
      obtain rfl := Option.some.inj h
      rw [if_pos hkey]
    · rename_i hkey
      rw [if_neg hkey, given, h]
  · rename_i h
    split at h
    · cases h
    · rename_i hkey
      rw [if_neg hkey, given, h]

private theorem get?_eq_none {key : Text} (h : key ∉ changes.map (·.1)) :
    Assoc.get? changes key = none := by
  by_contra hsome
  obtain ⟨v, hv⟩ := Assoc.get?_ne_none_iff.mp hsome
  exact h (List.mem_map_of_mem hv)

private theorem listsPatterns_cons (hnew : name ∉ changes.map (·.1)) :
    ListsPatterns ((name, v) :: changes) ↔
      (name = "ignore" → v.isNull = false → v.parts?.isSome = true) ∧ ListsPatterns changes := by
  simp only [ListsPatterns, Assoc.get?]
  by_cases hname : name = "ignore"
  · subst hname
    simp [get?_eq_none hnew]
  · simp [hname]

private theorem override_cons (c : Config) (name : Text) (v : JsonValue)
    (changes : List (Text × JsonValue)) : c.override ((name, v) :: changes) =
      if v.isNull then c.override changes
      else c.set name v >>= fun c => c.override changes := by
  cases hnull : v.isNull <;> simp [override, hnull]

/-- Settings with different names are changed together, or the patterns are no list. -/
theorem override_eq (c : Config) (hnames : ∀ p ∈ changes, p.1 ∈ names)
    (hnodup : (changes.map (·.1)).Nodup) :
    (ListsPatterns changes ∧ ∃ c', c.override changes = .ok c' ∧
      c'.toPairs = c.toPairs.map fun p => (p.1, given changes p.1 p.2)) ∨
    ¬ ListsPatterns changes ∧ c.override changes = .error ⟨⟩ := by
  induction changes generalizing c with
  | nil => exact .inl ⟨nofun, c, rfl, by simp [given, Assoc.get?]⟩
  | cons p changes ih =>
    obtain ⟨name, v⟩ := p
    obtain ⟨hnew, hnodup⟩ := List.nodup_cons.mp hnodup
    obtain ⟨hname, hnames⟩ := List.forall_mem_cons.mp hnames
    rw [override_cons, listsPatterns_cons hnew]
    have hrest {w : JsonValue} : given changes name w = w := by
      rw [given, get?_eq_none hnew]
    split
    · rename_i hnull
      have hsame : (name = "ignore" → v.isNull = false → v.parts?.isSome = true) := by simp [hnull]
      rw [and_iff_right hsame]
      have hgiven (p : Text × JsonValue) :
          given ((name, v) :: changes) p.1 p.2 = given changes p.1 p.2 := by
        rw [given_cons, if_pos hnull]
        split
        · rename_i hkey
          rw [← hkey, hrest]
        · rfl
      simp only [hgiven]
      exact ih c hnames hnodup
    · rename_i hnull
      have hset := set_of_mem c v hname
      split at hset
      · rename_i hbad
        obtain ⟨hignore, hparts⟩ := hbad
        refine .inr ⟨fun h => ?_, by rw [hset]; rfl⟩
        have hsome := h.1 hignore (by simpa using hnull)
        rw [hparts] at hsome
        cases hsome
      · rename_i hgood
        obtain ⟨c₁, hc₁, hpairs⟩ := hset
        have hparts : name = "ignore" → v.isNull = false → v.parts?.isSome = true := by
          intro hignore _
          exact Option.isSome_iff_ne_none.mpr fun hnone => hgood ⟨hignore, hnone⟩
        rw [hc₁]
        refine (ih c₁ hnames hnodup).imp (fun h => ?_) fun h => ?_
        · obtain ⟨hlists, c', hc', hpairs'⟩ := h
          refine ⟨⟨hparts, hlists⟩, c', hc', ?_⟩
          rw [hpairs', hpairs, List.map_map]
          refine List.map_congr_left fun p _ => ?_
          rw [Function.comp_apply, given_cons, if_neg hnull]
          by_cases hkey : name = p.1
          · rw [if_pos hkey, if_pos hkey.symm, ← hkey, hrest]
          · rw [if_neg hkey, if_neg (Ne.symm hkey)]
        · exact ⟨fun h' => h.1 h'.2, h.2⟩

end Override

section Load

variable {t : FileTree} {p : Path} {members : List (Text × JsonValue)}

/-- Names that are none of a setting play no part. -/
private theorem get?_known {name : Text} (h : name ∈ names) :
    Assoc.get? (members.filter fun p => names.contains p.1) name = Assoc.get? members name := by
  rw [Assoc.get?_filter members names.contains name, if_pos (List.contains_iff_mem.mpr h)]

private theorem ofMembers_records (file : Text) (members : List (Text × JsonValue)) :
    ∃ (warnings : List Log.Record) (debug : Log.Record),
      (∀ r ∈ warnings ++ [debug], r.level ≠ .error) ∧
      ofMembers file members =
        match default.override (members.filter fun p => names.contains p.1) with
        | .error e => (warnings, .error e)
        | .ok c => (warnings ++ [debug], .ok c) := by
  refine ⟨_, _, fun r hr => ?_, rfl⟩
  obtain hr | hr := List.mem_append.mp hr
  · split at hr
    · cases hr
    · rw [List.mem_singleton.mp hr]
      exact (by decide : Log.Level.warning ≠ .error)
  · rw [List.mem_singleton.mp hr]
    exact (by decide : Log.Level.debug ≠ .error)

/-- What members of an object make of the default settings. -/
private def Settles (members : List (Text × JsonValue)) (x : Except WrongKind Config) : Prop :=
  (ListsPatterns members ∧ ∃ c, x = .ok c ∧
    c.toPairs = default.toPairs.map fun p => (p.1, given members p.1 p.2)) ∨
  ¬ ListsPatterns members ∧ x = .error ⟨⟩

private theorem settles_nil : Settles [] (.ok default) :=
  .inl ⟨nofun, default, rfl, by simp [given, Assoc.get?]⟩

/-- Settings are read from an object, or its patterns are no list. Neither is logged as a failure. -/
private theorem settles_ofMembers (file : Text) (hnodup : (members.map (·.1)).Nodup) :
    Settles members (ofMembers file members).2 ∧
      ∀ r ∈ (ofMembers file members).1, r.level ≠ .error := by
  let known := members.filter fun p => names.contains p.1
  have hnames : ∀ p ∈ known, p.1 ∈ names := fun p hp =>
    List.contains_iff_mem.mp (List.mem_filter.mp hp).2
  have hlists : ListsPatterns known ↔ ListsPatterns members := by
    rw [ListsPatterns, ListsPatterns, get?_known (by decide)]
  have hgiven : (default.toPairs.map fun p => (p.1, given known p.1 p.2)) =
      default.toPairs.map fun p => (p.1, given members p.1 p.2) := by
    refine List.map_congr_left fun p hp => ?_
    rw [given, given, get?_known (List.mem_map_of_mem hp)]
  obtain ⟨warnings, debug, hlevels, hread⟩ := ofMembers_records file members
  rw [hread]
  obtain ⟨h, c, hc, hpairs⟩ | ⟨h, hc⟩ :=
    override_eq default hnames (hnodup.sublist (List.filter_sublist.map _))
  · rw [hc]
    exact ⟨.inl ⟨hlists.mp h, c, rfl, hpairs.trans hgiven⟩, hlevels⟩
  · rw [hc]
    exact ⟨.inr ⟨fun h' => h (hlists.mpr h'), rfl⟩,
      fun r hr => hlevels r (List.mem_append_left _ hr)⟩

private theorem nodup_of_valueIn? (h : valueIn? t p = some (.object members)) :
    (members.map (·.1)).Nodup := by
  rw [valueIn?] at h
  split at h
  · cases h
  · exact JsonValue.nodup_of_read? h

private theorem members?_eq_none (h : t.lookUp p = .ok none) : members? t p = none := by
  have hbytes : ∃ e, t.readBytes p = .error e := by
    rw [FileTree.lookUp] at h
    rw [FileTree.readBytes]
    split at h
    · rename_i hfind
      obtain rfl := Except.ok.inj h
      rw [hfind]
      exact ⟨_, rfl⟩
    · cases h
    · rename_i e _ hfind
      rw [hfind]
      exact ⟨e, rfl⟩
  obtain ⟨e, hbytes⟩ := hbytes
  rw [members?, valueIn?, FileTree.readText, hbytes]

/-- What comes of a file that is there. -/
private theorem settles_read (t : FileTree) (p : Path) (shown : Text) :
    Settles ((members? t p).getD []) (read t p shown).2 ∧
      ((∃ r ∈ (read t p shown).1, r.level = .error) ↔ members? t p = none) := by
  rw [read]
  split
  · rename_i hvalue
    rw [members?, hvalue]
    exact ⟨settles_nil, fun _ => rfl, fun _ => ⟨_, List.mem_singleton_self _, rfl⟩⟩
  · rename_i members hvalue
    rw [members?, hvalue]
    obtain ⟨hsettles, hlevels⟩ := settles_ofMembers shown (nodup_of_valueIn? hvalue)
    exact ⟨hsettles, by simpa using hlevels⟩
  · rename_i v hobject hvalue
    have hnone : members? t p = none := by
      rw [members?, hvalue]
      split
      · rename_i members heq
        cases heq
        exact (hobject members rfl).elim
      · rfl
    rw [hnone]
    exact ⟨settles_nil, fun _ => rfl, fun _ => ⟨_, List.mem_singleton_self _, rfl⟩⟩

/-- Whether something stands at a path is unclear only if the path is too long. -/
private theorem lookUp_eq_error {e : FileError} (h : t.lookUp p = .error e) : e = .nameTooLong := by
  rw [FileTree.lookUp] at h
  split at h
  · cases h
  · exact (Except.error.inj h).symm
  · cases h

/-- What is loaded depends on what stands at the path. -/
private theorem load_eq (t : FileTree) (directory : Path) (file : Option Path) :
    load t directory file =
      match t.lookUp (path directory file) with
      | .error e => ([], .error (.file e))
      | .ok none =>
        if file.isSome then
          ([⟨.config, .error, "Config file not found: " ++
            (file.getD (directory.child fileName)).toText ++ " (using defaults)"⟩], .ok default)
        else ([], .ok default)
      | .ok (some _) =>
        match read t (path directory file) (file.getD (directory.child fileName)).toText with
        | (records, .ok c) => (records, .ok c)
        | (records, .error _) => (records, .error .wrongKind) :=
  rfl

end Load

/-- Loading gives a configuration, unless the path of its file is too long or the patterns in it are no
list. Each setting is that of the file, or the default one where the file gives none. A failure is
logged exactly if the file holds no object, or is named and missing. Here a file may nest values as
deeply as it likes, while a reader that recurses gives up at some depth, and that failure is not one
that loading would catch. -/
theorem load_settles (t : FileTree) (directory : Path) (file : Option Path) :
    ((∃ c, (load t directory file).2 = .ok c) ↔
      t.lookUp (path directory file) ≠ .error .nameTooLong ∧
        ListsPatterns ((members? t (path directory file)).getD [])) ∧
    ∀ c, (load t directory file).2 = .ok c →
      (c.toPairs = default.toPairs.map fun (name, v) =>
        (name, given ((members? t (path directory file)).getD []) name v)) ∧
      ((∃ r ∈ (load t directory file).1, r.level = .error) ↔
        members? t (path directory file) = none ∧
          (file.isSome ∨ t.lookUp (path directory file) ≠ .ok none)) := by
  rw [load_eq]
  generalize path directory file = p
  generalize (file.getD (directory.child fileName)).toText = shown
  cases hlook : t.lookUp p with
  | error e =>
    obtain rfl := lookUp_eq_error hlook
    simp
  | ok entry =>
    cases entry with
    | none =>
      rw [members?_eq_none hlook]
      obtain ⟨hlists, c, hc, hpairs⟩ | ⟨_, hc⟩ := settles_nil
      · obtain rfl := Except.ok.inj hc
        cases file with
        | none => simpa [hlists] using hpairs
        | some file => simpa [hlists] using hpairs
      · cases hc
    | some entry =>
      obtain ⟨hsettles, hlevels⟩ := settles_read t p shown
      generalize read t p shown = x at hsettles hlevels
      obtain ⟨records, result⟩ := x
      obtain ⟨hlists, c, rfl, hpairs⟩ | ⟨hlists, rfl⟩ := hsettles
      · simp [hlists, hpairs, hlevels]
      · simp [hlists]

/-- A tree whose configuration gives the number 5 for the patterns. -/
def numberedPatterns : FileTree :=
  ⟨[([fileName], .file [123, 34, 105, 103, 110, 111, 114, 101, 34, 58, 53, 125] 0o644)]⟩

set_option maxRecDepth 8000 in
/-- Loading breaks off at patterns that are no list, and at a file whose name is too long. -/
theorem load_breaks_off :
    members? numberedPatterns (path ⟨1, []⟩ none) =
      some [(Text.ofString "ignore", JsonValue.int 5)] ∧
    (load numberedPatterns ⟨1, []⟩ none).2 = .error .wrongKind ∧
    (load .empty ⟨1, []⟩ (some ⟨0, [List.replicate 256 (.scalar 'a')]⟩)).2 =
      .error (.file .nameTooLong) := by
  have hmembers : members? numberedPatterns (path ⟨1, []⟩ none) =
      some [(Text.ofString "ignore", JsonValue.int 5)] := by cbv
  refine ⟨hmembers, ?_, by cbv⟩
  obtain ⟨e, hlook⟩ : ∃ e, numberedPatterns.lookUp (path ⟨1, []⟩ none) = .ok (some e) := ⟨_, by cbv⟩
  rw [load_eq, hlook]
  obtain ⟨hlists, -⟩ | ⟨-, hread⟩ := (settles_read numberedPatterns (path ⟨1, []⟩ none)
    ((none : Option Path).getD (Path.child ⟨1, []⟩ fileName)).toText).1
  · rw [hmembers] at hlists
    exact absurd (hlists (.int 5) (if_pos rfl) rfl) (by decide)
  · generalize read _ _ _ = x at hread ⊢
    obtain ⟨records, result⟩ := x
    obtain rfl : result = .error ⟨⟩ := hread
    rfl

end LocaleLift.Config
