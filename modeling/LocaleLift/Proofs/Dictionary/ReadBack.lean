import LocaleLift.Proofs.Dictionary
import LocaleLift.Proofs.Files.Reach
import LocaleLift.Proofs.Json.ReadBack
import LocaleLift.Proofs.Registry.History
import LocaleLift.Proofs.Text.Encodable
import Mathlib

/-! Dictionaries that have been written are read back without loss. -/
namespace LocaleLift

namespace Dictionary

section Document

variable {ns : Text} {texts : List Text}

/-- The value that a document holds: an object with the namespace as its only member, in which each
text stands for itself. -/
def content (ns : Text) (texts : List Text) : JsonValue :=
  .object [(ns, .object (texts.map fun t => (t, .string t)))]

/-- The bucket that is held by a value, if it is the content of a document. -/
def bucketOf? : JsonValue → Option Bucket
  | .object [(ns, .object members)] => do
    let texts ← members.mapM fun
      | (key, .string t) => if key = t then some t else none
      | _ => none
    return (ns, texts)
  | _ => none

private theorem mapM_map_eq_some {α β : Type} {f : α → β} {g : β → Option α} {as : List α}
    (h : ∀ a ∈ as, g (f a) = some a) : (as.map f).mapM g = some as := by
  induction as with
  | nil => rfl
  | cons a as ih =>
    obtain ⟨ha, has⟩ := List.forall_mem_cons.mp h
    simp [ha, ih has]

theorem bucketOf?_content (ns : Text) (texts : List Text) :
    bucketOf? (content ns texts) = some (ns, texts) := by
  simp only [content, bucketOf?]
  rw [mapM_map_eq_some fun t _ => if_pos rfl]
  rfl

private theorem document_eq (ns : Text) (texts : List Text) :
    document ns (table texts) = JsonValue.write .indented (content ns texts) ++ "\n" := by
  simp [document, table, content, Function.comp_def]

/-- A document is read as what it holds. -/
theorem read?_document (h : texts.Nodup) :
    JsonValue.read? (document ns (table texts)) = some (content ns texts) := by
  have hlayout := JsonValue.Layout.isBlank_indented
  have hmembers : JsonValue.ReadsBack .indented 1
      (.object (texts.map fun t => (t, .string t))) := by
    refine JsonValue.readsBack_object hlayout (fun m hm => ?_)
      (by simpa [Function.comp_def] using h)
    obtain ⟨t, -, rfl⟩ := List.mem_map.mp hm
    exact JsonValue.readsBack_string _ _ t
  rw [document_eq]
  refine JsonValue.read?_write (JsonValue.readsBack_object hlayout (fun m hm => ?_) (by simp))
    (by decide)
  obtain rfl := List.mem_singleton.mp hm
  exact hmembers

/-- What a document is made of: printable characters, line feeds, and what the namespace and the
texts hold besides controls. -/
private theorem forall_mem_document {p : CodePoint → Prop}
    (hprint : ∀ c : CodePoint, 0x20 ≤ c.toNat → c.toNat < 0x7F → p c) (hfeed : p (.scalar '\n'))
    (hns : ∀ c ∈ ns, 0x20 ≤ c.toNat → p c) (htexts : ∀ t ∈ texts, ∀ c ∈ t, 0x20 ≤ c.toNat → p c) :
    ∀ c ∈ document ns (table texts), p c := by
  have hspace : p (.scalar ' ') := hprint _ (by decide) (by decide)
  have hcolon : ∀ c ∈ JsonValue.Layout.indented.afterColon, p c := by
    intro c hc
    obtain rfl := List.mem_singleton.mp hc
    exact hspace
  have hbreak (depth : Nat) : ∀ c ∈ JsonValue.Layout.indented.lineBreak depth, p c := by
    intro c hc
    obtain rfl | hc := List.mem_cons.mp hc
    · exact hfeed
    · rw [List.eq_of_mem_replicate hc]
      exact hspace
  rw [document_eq]
  intro c hc
  obtain hc | hc := List.mem_append.mp hc
  · refine JsonValue.forall_mem_object hprint hcolon hbreak (fun m hm => ?_) c hc
    obtain rfl := List.mem_singleton.mp hm
    refine ⟨hns, JsonValue.forall_mem_object hprint hcolon hbreak fun m hm => ?_⟩
    obtain ⟨t, ht, rfl⟩ := List.mem_map.mp hm
    exact ⟨htexts t ht, JsonValue.forall_mem_writeString hprint (htexts t ht)⟩
  · obtain rfl := List.mem_singleton.mp hc
    exact hfeed

theorem isEncodable_document (hns : ns.isEncodable = true)
    (htexts : ∀ t ∈ texts, t.isEncodable = true) :
    (document ns (table texts)).isEncodable = true := by
  refine Text.isEncodable_iff.mpr (forall_mem_document (fun c _ hc => ?_) rfl ?_ fun t ht => ?_)
  · rw [CodePoint.isScalar_iff]
    omega
  · exact fun c hc _ => Text.isEncodable_iff.mp hns c hc
  · exact fun c hc _ => Text.isEncodable_iff.mp (htexts t ht) c hc

/-- A document has line feeds for all ends of lines. -/
theorem not_mem_document : .scalar '\r' ∉ document ns (table texts) := by
  have hcontrol (c : CodePoint) (hc : 0x20 ≤ c.toNat) : c ≠ .scalar '\r' := by
    rintro rfl
    exact absurd hc (by decide)
  intro hmem
  exact forall_mem_document (fun c hc _ => hcontrol c hc) (by decide) (fun c _ => hcontrol c)
    (fun _ _ c _ => hcontrol c) _ hmem rfl

/-- A file that holds a document is read as what the document holds. -/
theorem readJson_document {t : FileTree} {p : Path} {l : Location} {bytes : List UInt8}
    (hfind : t.find true p = .ok (l, t.get? l)) (hbytes : t.bytes? l = some bytes)
    (hdocument : Utf8.encode (document ns (table texts)) = some bytes) (hnodup : texts.Nodup) :
    t.readJson p = .ok (content ns texts) := by
  obtain ⟨mode, hget⟩ := FileTree.bytes?_eq_some.mp hbytes
  rw [hget] at hfind
  have htext : Text.ofBytes? bytes = some (document ns (table texts)) := by
    rw [Text.ofBytes?, Utf8.decode_encode hdocument, Option.map_some,
      Text.withLineFeeds_eq_self_iff.mpr not_mem_document]
  have hread : t.readText p = .ok (document ns (table texts)) := by
    simp only [FileTree.readText, FileTree.readBytes_eq_ok hfind, htext]
  simp [FileTree.readJson, hread, read?_document hnodup, bind, Except.bind, pure, Except.pure]

end Document

/-- The path of the dictionary of a namespace, below a base. -/
def target (base directory : Path) (ns : Text) : Path :=
  base.append (path directory ns)

private theorem name_target_ne_up (base directory : Path) (ns : Text) :
    (target base directory ns).name ≠ ".." := by
  obtain ⟨stem, hstem⟩ := getLast?_names base directory ns
  have hname : (target base directory ns).name = stem ++ ".json" := by
    rw [Path.name, show (target base directory ns).names = names base directory ns from rfl, hstem,
      Option.getD_some]
  intro heq
  have hlength := congrArg List.length (hname.symm.trans heq)
  simp [Text.ofString] at hlength

private theorem child_parent_target (base directory : Path) (ns : Text) :
    (target base directory ns).parent.child (target base directory ns).name =
      target base directory ns := by
  obtain ⟨stem, hstem⟩ := getLast?_names base directory ns
  have hstem : (target base directory ns).names.getLast? = some (stem ++ ".json") := hstem
  obtain ⟨init, hinit⟩ := List.getLast?_eq_some_iff.mp hstem
  cases htarget : target base directory ns with
  | mk root names =>
    rw [htarget] at hinit
    subst hinit
    simp [Path.parent, Path.child, Path.name]

/-- The place of the dictionary of a namespace, if the site of its directory is known. -/
def place (site : Text → FileTree.Site) (base directory : Path) (ns : Text) : Location :=
  (site ns).place ++ [(target base directory ns).name]

/-- Room for the dictionaries of some namespaces: each of them can be written, their files are
different, and none stands on the way to another. -/
structure Room (t : FileTree) (base directory : Path) (nss : List Text) where
  root : FileTree.Site
  site : Text → FileTree.Site
  root_path : root.path = base.append directory
  root_fits : root.path.Fits
  root_open : root.IsOpen t
  site_path : ∀ ns ∈ nss, (site ns).path = (target base directory ns).parent
  takes : ∀ ns ∈ nss, (site ns).Takes t (target base directory ns).name
  different : ∀ ns ∈ nss, ∀ other ∈ nss, ns ≠ other →
    place site base directory ns ≠ place site base directory other
  root_apart : ∀ ns ∈ nss, root.IsOpen (t.set (place site base directory ns) (.file [] 0))
  apart : ∀ ns ∈ nss, ∀ other ∈ nss, ns ≠ other →
    (site other).IsOpen (t.set (place site base directory ns) (.file [] 0))

namespace Room

variable {s s' s'' : Log.Session} {base directory : Path} {nss : List Text} {ns : Text}
  {issued : List Bucket}

def file {t : FileTree} (room : Room t base directory nss) (ns : Text) : Location :=
  place room.site base directory ns

def Passes {t : FileTree} (room : Room t base directory nss) (l : Location) : Prop :=
  room.root.Passes l ∨ ∃ ns ∈ nss, (room.site ns).Passes l

theorem isOpen_set {t : FileTree} (room : Room t base directory nss) (hns : ns ∈ nss) {other : Text}
    (hother : other ∈ nss) : (room.site other).IsOpen (t.set (room.file ns) (.file [] 0)) := by
  by_cases heq : ns = other
  · subst heq
    exact (room.takes ns hns).apart
  · exact room.apart ns hns other hother heq

theorem not_passes {t : FileTree} (room : Room t base directory nss) (hns : ns ∈ nss) :
    ¬ room.Passes (room.file ns) := by
  have hnil : room.file ns ≠ [] := by simp [file, place]
  rintro (hroot | ⟨other, hother, hpasses⟩)
  · exact (room.root_apart ns hns).not_passes hnil hroot
  · exact (room.isOpen_set hns hother).not_passes hnil hpasses

/-- The dictionaries of some buckets stand in their room, and only their files have changed. No log
file has been rolled over. -/
structure Filled (room : Room s.tree base directory nss) (s' : Log.Session) (issued : List Bucket) :
    Prop where
  session : Log.Session.Changes (fun l => ∃ p ∈ issued, l = room.file p.1) room.Passes s s'
  calm : s'.renewals ≤ s.renewals
  directory : ∀ p ∈ issued, ∀ l, (room.site p.1).Passes l → s'.tree.get? l = some .directory
  holds : ∀ p ∈ issued, s'.Holds (room.file p.1) (document p.1 (table p.2))

variable {room : Room s.tree base directory nss}

theorem Filled.nil (h : Log.Session.Changes (fun _ => False) room.Passes s s')
    (hr : s'.renewals ≤ s.renewals) : room.Filled s' [] :=
  ⟨h.mono (fun _ => False.elim) fun _ => id, hr, by simp, by simp⟩

theorem Filled.trans (h : room.Filled s' issued)
    (h' : Log.Session.Changes (fun _ => False) room.Passes s' s'')
    (hr : s''.renewals ≤ s'.renewals) : room.Filled s'' issued where
  session := h.session.trans (h'.mono (fun _ => False.elim) fun _ => id)
  calm := Nat.le_trans hr h.calm
  directory p hp l hl := (h'.tree hr).directory l (h.directory p hp l hl)
  holds p hp := (h.holds p hp).changes h' hr id

theorem Filled.concat {d : Bucket} (h : room.Filled s' issued) (hissued : ∀ p ∈ issued, p.1 ∈ nss)
    (hd : d.1 ∈ nss) (hnew : d.1 ∉ issued.map (·.1))
    (h' : Log.Session.Changes (· = room.file d.1) room.Passes s' s'')
    (hr : s''.renewals ≤ s'.renewals)
    (hdirectory : ∀ l, (room.site d.1).Passes l → s''.tree.get? l = some .directory)
    (hholds : s''.Holds (room.file d.1) (document d.1 (table d.2))) :
    room.Filled s'' (issued ++ [d]) where
  session := by
    refine (h.session.mono (fun l hl => ?_) fun _ => id).trans (h'.mono (fun l hl => ?_) fun _ => id)
    · obtain ⟨p, hp, hl⟩ := hl
      exact ⟨p, List.mem_append_left _ hp, hl⟩
    · exact ⟨d, by simp, hl⟩
  calm := Nat.le_trans hr h.calm
  directory p hp := by
    obtain hp | rfl := (List.mem_append.mp hp).imp_right List.mem_singleton.mp
    · exact fun l hl => (h'.tree hr).directory l (h.directory p hp l hl)
    · exact hdirectory
  holds p hp := by
    obtain hp | rfl := (List.mem_append.mp hp).imp_right List.mem_singleton.mp
    · refine (h.holds p hp).changes h' hr (room.different p.1 (hissued p hp) d.1 hd fun heq => ?_)
      exact hnew (heq ▸ List.mem_map_of_mem hp)
    · exact hholds

/-- What has changed since are files, or it leaves the way to every dictionary open. -/
private theorem isOpen_or_file (room : Room s.tree base directory nss)
    (hlogs : ∀ l ∈ s.openPlaces, (s.tree.bytes? l).isSome) (hissued : ∀ p ∈ issued, p.1 ∈ nss)
    (hns : ns ∈ nss) {l : Location} (hl : (∃ p ∈ issued, l = room.file p.1) ∨ l ∈ s.openPlaces) :
    (s.tree.bytes? l).isSome ∨ (room.site ns).IsOpen (s.tree.set l (.file [] 0)) := by
  obtain ⟨p, hp, rfl⟩ | hl := hl
  · exact .inr (room.isOpen_set (hissued p hp) hns)
  · exact .inl (hlogs l hl)

/-- There still is room for a dictionary that has not been written. -/
theorem Filled.takes (h : room.Filled s' issued)
    (hlogs : ∀ l ∈ s.openPlaces, (s.tree.bytes? l).isSome) (hissued : ∀ p ∈ issued, p.1 ∈ nss)
    (hns : ns ∈ nss) (hnew : ns ∉ issued.map (·.1)) :
    (room.site ns).Takes s'.tree (target base directory ns).name := by
  refine (room.takes ns hns).of_changes (h.session.tree h.calm)
    (fun l hl => room.isOpen_or_file hlogs hissued hns hl) (fun hfile => ?_) (room.not_passes hns)
  obtain ⟨p, hp, heq⟩ | hlog := hfile
  · have hne : ns ≠ p.1 := fun he => hnew (he ▸ List.mem_map_of_mem hp)
    exact absurd heq (room.different ns hns p.1 (hissued p hp) hne)
  · exact hlogs _ hlog

/-- A dictionary that has been written is found where its path leads. -/
theorem Filled.find (h : room.Filled s' issued)
    (hlogs : ∀ l ∈ s.openPlaces, (s.tree.bytes? l).isSome) (hissued : ∀ p ∈ issued, p.1 ∈ nss)
    {p : Bucket} (hp : p ∈ issued) :
    s'.tree.find true (target base directory p.1) =
      .ok (room.file p.1, s'.tree.get? (room.file p.1)) := by
  have hns := hissued p hp
  obtain ⟨-, bytes, -, hbytes⟩ := h.holds p hp
  obtain ⟨mode, hget⟩ := FileTree.bytes?_eq_some.mp hbytes
  have hget : s'.tree.get? ((room.site p.1).place ++ [(target base directory p.1).name]) =
      some (.file bytes mode) := hget
  have hstands : (room.site p.1).Stands s'.tree :=
    ⟨((room.takes p.1 hns).isOpen.of_changes (h.session.tree h.calm) fun l hl =>
      room.isOpen_or_file hlogs hissued hns hl).outer, h.directory p hp⟩
  have hfind := hstands.find_child true (name_target_ne_up base directory p.1)
    (room.takes p.1 hns).fits (by simp [hget])
  rwa [room.site_path p.1 hns, child_parent_target] at hfind

end Room

/-- The dictionary of a namespace without slashes stands in the directory itself. -/
theorem target_of_plain (base directory : Path) {ns : Text} (h : .scalar '/' ∉ ns) :
    target base directory ns = (base.append directory).child (fileName ns) := by
  have hslash : .scalar '/' ∉ fileName ns := by
    rw [fileName, List.mem_append, not_or]
    exact ⟨h, by decide⟩
  have hlong : 4 < (fileName ns).length := by
    simp only [fileName, Text.ofString, List.length_append]
    simp
  have hstart : (fileName ns).takeWhile (· == .scalar '/') = [] := by
    cases hname : fileName ns with
    | nil => rfl
    | cons c t =>
      refine List.takeWhile_cons_of_neg ?_
      rintro heq
      rw [hname, beq_iff_eq.mp heq] at hslash
      simp at hslash
  have hnot : (fileName ns).isEmpty = false ∧ fileName ns ≠ "." := by
    constructor
    · cases hname : fileName ns with
      | nil => simp [hname] at hlong
      | cons => rfl
    · intro heq
      simp [heq, Text.ofString] at hlong
  have hname : Path.ofText (fileName ns) = ⟨0, [fileName ns]⟩ := by
    simp [Path.ofText, hstart, Text.splitOn_of_not_mem hslash, hnot]
  rw [target, path, hname]
  by_cases hroot : directory.root = 0
  · simp [Path.append, Path.child, hroot]
  · simp [Path.append, Path.child, hroot]

/-- There is room for namespaces without slashes in a directory that can be made, if nothing but
files stands in the places of their dictionaries. -/
def Room.plain {t : FileTree} {base directory : Path} {nss : List Text} (root : FileTree.Site)
    (hpath : root.path = base.append directory) (hopen : root.IsOpen t)
    (hsteps : (".." : Text) ∉ root.names) (hroot : root.path.Fits)
    (htemporary : Utf8.size root.path.toText + FileM.temporarySize ≤ FileTree.maxPath)
    (hplain : ∀ ns ∈ nss, .scalar '/' ∉ ns)
    (hfits : ∀ ns ∈ nss, (root.path.child (fileName ns)).Fits)
    (hfile : ∀ ns ∈ nss, ∀ e, t.get? (root.place ++ [fileName ns]) = some e →
      ∃ bytes mode, e = .file bytes mode) : Room t base directory nss :=
  have htarget (ns : Text) (hns : ns ∈ nss) :
      target base directory ns = root.path.child (fileName ns) := by
    rw [target_of_plain base directory (hplain ns hns), hpath]
  have hname (ns : Text) (hns : ns ∈ nss) : (target base directory ns).name = fileName ns := by
    simp [htarget ns hns, Path.name, Path.child]
  have htakes (ns : Text) (hns : ns ∈ nss) : root.Takes t (fileName ns) :=
    hopen.takes hsteps (hfits ns hns) htemporary (hfile ns hns)
  { root := root
    site := fun _ => root
    root_path := hpath
    root_fits := hroot
    root_open := hopen
    site_path := fun ns hns => by simp [htarget ns hns, Path.parent, Path.child]
    takes := fun ns hns => by
      rw [hname ns hns]
      exact htakes ns hns
    different := fun ns hns other hother hne heq => by
      rw [place, place, hname ns hns, hname other hother] at heq
      exact hne (List.append_cancel_right (List.singleton_inj.mp (List.append_cancel_left heq)))
    root_apart := fun ns hns => by
      rw [place, hname ns hns]
      exact (htakes ns hns).apart
    apart := fun ns hns other hother _ => by
      rw [place, hname ns hns]
      exact (htakes ns hns).apart }

/-- What is told of a dictionary that has been written. -/
def written (directory : Path) (d : Bucket) : Written :=
  ⟨path directory d.1, d.2.length⟩

section WriteAll

variable {time : Text} {s s' : Log.Session} {base directory : Path} {r : Registry}

/-- One dictionary is written in its room. -/
private theorem Room.after_writeOne {nss : List Text} {issued : List Bucket} {d : Bucket}
    {room : Room s.tree base directory nss} (h : room.Filled s' issued)
    (hlogs : ∀ l ∈ s.openPlaces, (s.tree.bytes? l).isSome) (hissued : ∀ p ∈ issued, p.1 ∈ nss)
    (hd : d.1 ∈ nss) (hnew : d.1 ∉ issued.map (·.1)) (hns : d.1.isEncodable = true)
    (htexts : ∀ t ∈ d.2, t.isEncodable = true) :
    After (writeOne base directory d.1 d.2) s'
      (fun w s'' => w = written directory d ∧ room.Filled s'' (issued ++ [d]))
      fun _ _ => False := by
  have hwritten := FileM.after_writeText_takes (h.takes hlogs hissued hd hnew)
    (name_target_ne_up base directory d.1) (isEncodable_document hns htexts)
  rw [room.site_path d.1 hd, child_parent_target] at hwritten
  rw [writeOne, after_bind]
  refine (Log.Session.after_write_of (fun l t => l = room.file d.1 ∧
    ∀ m, (room.site d.1).Passes m → t.get? m = some .directory) (r := fun _ _ => False) hwritten).imp
    (fun _ s'' h'' => ?_) fun _ _ => id
  obtain ⟨hr, _, ⟨rfl, hdirectory⟩, hc, hholds⟩ := h''
  rw [after_pure]
  refine ⟨rfl, h.concat hissued hd hnew (hc.mono (fun _ => id) fun l hl => ?_) hr.le hdirectory hholds⟩
  exact .inr ⟨d.1, hd, hl⟩

private theorem keeps_writeOne (time : Text) (base directory : Path) (n : Nat) (d : Bucket) :
    Keeps (fun s => n ≤ s.renewals) (do
      let w ← writeOne base directory d.1 d.2
      modify (Log.Session.log time w.record)
      return w : Log.Session.StepM Written) := by
  refine Keeps.bind ((Log.Session.keeps_renewals_write n _ _).bind fun _ => keeps_pure _) fun w => ?_
  refine Keeps.bind (keeps_modify fun u hu => ?_) fun _ => keeps_pure w
  exact Nat.le_trans hu (Log.Session.le_renewals_log time w.record u)

/-- Where there is room for them, all dictionaries are written, unless a log file is rolled over. -/
theorem Room.after_writeAll (room : Room s.tree base directory r.namespaces)
    (hlogs : ∀ l ∈ s.openPlaces, (s.tree.bytes? l).isSome)
    (hencodable : ∀ p ∈ r.serialize, p.1.isEncodable = true ∧ ∀ t ∈ p.2, t.isEncodable = true) :
    After (writeAll time base directory r) s
      (fun ws s' => s'.renewals ≤ s.renewals →
        ws = r.serialize.map (written directory) ∧ room.Filled s' r.serialize)
      fun _ s' => s'.renewals ≤ s.renewals → False := by
  have hmem (p : Bucket) (hp : p ∈ r.serialize) : p.1 ∈ r.namespaces :=
    r.namespaces_perm.mem_iff.mpr (List.mem_map_of_mem hp)
  have hroot := FileM.after_ensureDirectories_open room.root_open room.root_fits
  rw [room.root_path] at hroot
  rw [writeAll, after_bind, Log.Session.after_onFiles]
  refine hroot.imp (fun _ t ht => ?_) fun _ _ => False.elim
  have hready : room.Filled { s with tree := t } [] :=
    .nil (.of_files (ht.1.mono (fun _ => False.elim) fun _ => .inl)) (Nat.le_refl _)
  refine after_mapM_results
    (p := fun before ws s' => s'.renewals ≤ s.renewals →
      ws = before.map (written directory) ∧ room.Filled s' before)
    (fun _ => ⟨rfl, hready⟩) ?_
  rintro before d after hserialize ws s' hs'
  have hbefore (p : Bucket) (hp : p ∈ before) : p ∈ r.serialize := by simp [hserialize, hp]
  have hd : d ∈ r.serialize := by simp [hserialize]
  have hnew := Registry.not_mem_of_serialize hserialize
  obtain ⟨hns, htexts⟩ := hencodable d hd
  have hkeeps := keeps_writeOne time base directory (s.renewals + 1) d
  refine Keeps.after_while
    (by simpa only [Nat.not_le, Nat.lt_iff_add_one_le] using hkeeps) fun hcalm => ?_
  obtain ⟨hws, hfilled⟩ := hs' hcalm
  rw [after_bind]
  refine (Room.after_writeOne hfilled hlogs (fun p hp => hmem p (hbefore p hp)) (hmem d hd) hnew hns
    htexts).imp (fun w s'' h => ?_) fun _ _ => False.elim
  obtain ⟨rfl, hfilled⟩ := h
  rw [after_bind, after_modify, after_pure]
  have hlog : Log.Session.Changes (fun _ => False) room.Passes s'' _ :=
    Log.Session.changes_log time (written directory d).record s''
  exact fun hcalm => ⟨by simp [hws], hfilled.trans hlog (hfilled.session.calm hlog hcalm).2⟩

/-- All that a registry holds is stored: one file for each namespace, in increasing order, and no
other file has changed. Read as JSON, each file is an object with the namespace as its only member,
whose texts are exactly those of the namespace, in increasing order, each standing for itself. So
the files give back what the registry is serialized to. -/
structure Stored (r : Registry) (room : Room s.tree base directory r.namespaces)
    (ws : List Written) (s' : Log.Session) : Prop where
  written : ws = r.serialize.map (written directory)
  files : Log.Session.Changes (fun l => ∃ ns ∈ r.namespaces, l = room.file ns) room.Passes s s'
  there : ∀ ns ∈ r.namespaces, (s'.tree.bytes? (room.file ns)).isSome
  once : (r.namespaces.map room.file).Nodup
  read : ∀ p ∈ r.serialize,
    s'.tree.readJson (base.append (path directory p.1)) = .ok (content p.1 p.2)
  rendering : Registry.IsRendering r.toList.toFinset r.serialize
  recovered : (ws.mapM fun w => (s'.tree.readJson (base.append w.path)).toOption.bind bucketOf?) =
    some r.serialize

/-- Where there is room for its dictionaries, all that a registry holds is stored, as long as it can
be encoded and no log file is rolled over meanwhile. -/
theorem writeAll_stored (room : Room s.tree base directory r.namespaces)
    (hlogs : ∀ l ∈ s.openPlaces, (s.tree.bytes? l).isSome)
    (hencodable : ∀ p ∈ r.toList, p.1.isEncodable = true ∧ p.2.isEncodable = true) :
    After (writeAll time base directory r) s
      (fun ws s' => s'.renewals = s.renewals → Stored r room ws s')
      fun _ s' => s'.renewals ≠ s.renewals := by
  have hrendering : Registry.IsRendering r.toList.toFinset r.serialize :=
    Registry.isRendering_serialize (by simp)
  have hmem (ns : Text) : ns ∈ r.namespaces ↔ ∃ p ∈ r.serialize, p.1 = ns := by
    rw [r.namespaces_perm.mem_iff, List.mem_map]
  have hbuckets (p : Bucket) (hp : p ∈ r.serialize) :
      p.1.isEncodable = true ∧ ∀ t ∈ p.2, t.isEncodable = true := by
    have hall (t : Text) (ht : t ∈ p.2) : (p.1, t) ∈ r.toList := by
      have hfiled := (hrendering.mem_iff p.1 t).mp ⟨p.2, hp, ht⟩
      simpa using hfiled
    obtain ⟨t, ht⟩ := List.exists_mem_of_ne_nil _ (hrendering.texts p hp).1
    exact ⟨(hencodable _ (hall t ht)).1, fun t ht => (hencodable _ (hall t ht)).2⟩
  have hnodup (p : Bucket) (hp : p ∈ r.serialize) : p.2.Nodup := by
    refine (hrendering.texts p hp).2.imp fun {t u} hlt heq => ?_
    rw [heq] at hlt
    exact Text.lt_irrefl u hlt
  refine (room.after_writeAll hlogs hbuckets).imp (fun ws s' h hcalm => ?_)
    fun _ _ h hcalm => h hcalm.le
  obtain ⟨rfl, hfilled⟩ := h hcalm.le
  have hissued (p : Bucket) (hp : p ∈ r.serialize) : p.1 ∈ r.namespaces := (hmem p.1).mpr ⟨p, hp, rfl⟩
  have hread (p : Bucket) (hp : p ∈ r.serialize) :
      s'.tree.readJson (base.append (path directory p.1)) = .ok (content p.1 p.2) := by
    obtain ⟨-, bytes, hdocument, hbytes⟩ := hfilled.holds p hp
    exact readJson_document (hfilled.find hlogs hissued hp) hbytes hdocument (hnodup p hp)
  refine ⟨rfl, hfilled.session.mono ?_ fun _ => id, ?_, ?_, hread, hrendering, ?_⟩
  · rintro l ⟨p, hp, rfl⟩
    exact ⟨p.1, hissued p hp, rfl⟩
  · intro ns hns
    obtain ⟨p, hp, rfl⟩ := (hmem ns).mp hns
    obtain ⟨-, bytes, -, hbytes⟩ := hfilled.holds p hp
    simp [hbytes]
  · have hnamespaces := r.namespaces_perm.nodup_iff.mpr r.nodup_serialize
    exact hnamespaces.map_on fun ns hns other hother heq =>
      Decidable.byContradiction fun hne => room.different ns hns other hother hne heq
  · refine mapM_map_eq_some fun p hp => ?_
    rw [written, hread p hp]
    exact bucketOf?_content p.1 p.2

end WriteAll

/-- Texts with a quote, a backslash, a control and a line separator. -/
def special : Registry :=
  ((Registry.empty (.ofList [] "common")).record "b" "\x22\\").record "a" "\x01\u2028"

theorem writeAll_stored_special :
    ∃ room : Room (Log.Session.start .empty).tree ⟨1, []⟩ "loc" special.namespaces,
      After (writeAll [] ⟨1, []⟩ "loc" special) (.start .empty) (Stored special room)
        fun _ _ => False := by
  have hnamespaces : special.namespaces = (["a", "b"] : List Text) := by cbv
  have htexts : special.toList = ([("b", "\x22\\"), ("a", "\x01\u2028")] : List (Text × Text)) := by
    cbv
  have hempty (l : Location) (e : Entry) (h : FileTree.empty.get? l = some e) :
      l = [] ∧ e = .directory := by
    rw [FileTree.get?] at h
    split at h
    · exact ⟨List.isEmpty_iff.mp (by assumption), (Option.some.inj h).symm⟩
    · cases h
  have hopen : FileTree.Site.IsOpen ⟨⟨1, []⟩, [], ["loc"]⟩ .empty :=
    ⟨by cbv, fun l _ e he => (hempty l e he).2⟩
  have room : Room (Log.Session.start .empty).tree ⟨1, []⟩ "loc" special.namespaces := by
    rw [hnamespaces]
    refine Room.plain ⟨⟨1, []⟩, [], ["loc"]⟩ (by decide) hopen (by decide)
      ⟨by decide, by decide, by decide⟩ (by decide) (by decide) ?_ ?_
    · simp only [List.forall_mem_cons]
      exact ⟨⟨by decide, by decide, by decide⟩, ⟨by decide, by decide, by decide⟩, by simp⟩
    · exact fun ns _ e he => absurd (hempty _ e he).1 (by simp)
  have hlogs : ∀ l ∈ (Log.Session.start .empty).openPlaces,
      ((Log.Session.start .empty).tree.bytes? l).isSome := fun l hl => by cases hl
  have hcalm : ((writeAll [] ⟨1, []⟩ "loc" special).run.run (.start .empty) :
      Except FileError (List Written) × Log.Session).2.renewals = 0 := by cbv
  refine ⟨room, ((writeAll_stored room hlogs ?_).and after_self).imp (fun ws s' h => h.1 ?_)
    fun e s' h => h.1 ?_⟩
  · rw [htexts]
    decide
  · rw [h.2] at hcalm
    exact hcalm
  · rw [h.2] at hcalm
    exact hcalm

/-- The second dictionary would stand in a directory where the first one is. -/
def nested : Registry :=
  ((Registry.empty (.ofList [] "common")).record "a" "中").record "a.json/b" "文"

def lengthy : Registry :=
  (Registry.empty (.ofList [] "common")).record (List.replicate 251 (.scalar 'a')) "中"

/-- The name of the dictionary holds a null character. -/
def withNull : Registry :=
  (Registry.empty (.ofList [] "common")).record "\x00" "中"

def single : Registry :=
  (Registry.empty (.ofList [] "common")).record "a" "中"

/-- The log file `o` has been removed when it was as large as it may be. Its first older file would be
`o.1`, where a directory is. -/
def fullLog : Log.Session :=
  ⟨⟨[(["o.1"], .directory)]⟩, ⟨.info, [.file ⟨⟨1, ["o"]⟩, ["o"], .standard,
    some (.hidden Log.Rollover.standard.limit)⟩]⟩, [], 0⟩

set_option maxRecDepth 8000 in
/-- There is not always room: different files may be in each other's way, names may be refused, and
something else may stand in the place of a file or of the directory. And what has been written may
be moved when a log file is rolled over. -/
theorem writeAll_refused :
    (∀ p ∈ nested.toList, p.1.isEncodable = true ∧ p.2.isEncodable = true) ∧
      (nested.namespaces.map (target ⟨1, []⟩ "loc")).Nodup ∧
      ((writeAll [] ⟨1, []⟩ "loc" nested).run.run (.start .empty)).1 = .error .occupied ∧
      ((writeAll [] ⟨1, []⟩ "loc" lengthy).run.run (.start .empty)).1 = .error .nameTooLong ∧
      ((writeAll [] ⟨1, []⟩ "loc" withNull).run.run (.start .empty)).1 = .error .nullInName ∧
      ((writeAll [] ⟨1, []⟩ "loc" nested).run.run
        (.start ⟨[(["loc"], .directory), (["loc", "a.json"], .directory)]⟩)).1 =
          .error .isDirectory ∧
      ((writeAll [] ⟨1, []⟩ "loc" nested).run.run (.start ⟨[(["loc"], .file [] 0o644)]⟩)).1 =
        .error .occupied ∧
      ((writeAll [] ⟨1, []⟩ "o.1" single).run.run fullLog).1 = .ok [⟨⟨0, ["o.1", "a.json"]⟩, 1⟩] ∧
      ((writeAll [] ⟨1, []⟩ "o.1" single).run.run fullLog).2.tree.get? ["o.1", "a.json"] = none := by
  have htexts : nested.toList = ([("a", "中"), ("a.json/b", "文")] : List (Text × Text)) := by cbv
  have htargets : nested.namespaces.map (target ⟨1, []⟩ "loc") =
      [⟨1, ["loc", "a.json"]⟩, ⟨1, ["loc", "a.json", "b.json"]⟩] := by cbv
  have hfull :
      ((writeAll [] ⟨1, []⟩ "o.1" single).run.run fullLog).1 = .ok [⟨⟨0, ["o.1", "a.json"]⟩, 1⟩] ∧
      ((writeAll [] ⟨1, []⟩ "o.1" single).run.run fullLog).2.tree.get? ["o.1", "a.json"] =
        none := by cbv
  refine ⟨?_, ?_, by cbv, by cbv, by cbv, by cbv, by cbv, hfull⟩
  · rw [htexts]
    decide
  · rw [htargets]
    decide

end Dictionary

end LocaleLift
