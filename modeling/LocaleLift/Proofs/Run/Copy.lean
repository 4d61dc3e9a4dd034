import LocaleLift.Proofs.Run.Sources
import Mathlib

/-! The copy of a unit that is not rewritten. -/
namespace LocaleLift

/-- The text of a file can be written again. It then has the bytes of the file, unless a line ends
with a carriage return in it. -/
theorem Text.exists_encode_of_ofBytes? {bytes : List UInt8} {text : Text}
    (h : ofBytes? bytes = some text) :
    ∃ copy, Utf8.encode text = some copy ∧ (copy = bytes ↔ 13 ∉ bytes) := by
  obtain ⟨decoded, hdecode, rfl⟩ := Option.map_eq_some_iff.mp h
  have hencode := Utf8.encode_decode hdecode
  have hreturn : 13 ∈ bytes ↔ .scalar '\r' ∈ decoded :=
    Utf8.mem_encode_iff (c := '\r') hencode (by decide)
  have hscalar : decoded.isEncodable = true := Utf8.exists_encode_iff.mp ⟨bytes, hencode⟩
  rw [← isEncodable_withLineFeeds] at hscalar
  obtain ⟨copy, hcopy⟩ := Utf8.exists_encode_iff.mpr hscalar
  refine ⟨copy, hcopy, ?_⟩
  rw [hreturn, ← withLineFeeds_eq_self_iff]
  constructor
  · rintro rfl
    exact Option.some.inj ((Utf8.decode_encode hcopy).symm.trans hdecode)
  · intro hsame
    rw [hsame] at hcopy
    exact Option.some.inj (hcopy.symm.trans hencode)

namespace Run

/-- A unit that does not parse, or whose text is left as it is, is copied: its text stands where the
target leads. The copy has the bytes of the unit, unless carriage returns end its lines. This holds
unless a log file is rolled over by what is logged of the unit. -/
theorem visitUnit_copies [Script.Parser] (host : Host) (plan : Plan) {source target : Path}
    {s s' : State}
    {bytes : List UInt8} {text : Text} {result : Except Failure Text} (hdry : plan.dryRun = false)
    (hread : s.session.tree.readBytes source = .ok bytes)
    (hsize : isTooLarge plan.maxFileSize bytes.length = .ok false)
    (htext : Text.ofBytes? bytes = some text)
    (hprocess : (SourceUnit.process s.registry plan.ns.plain plan.function.plain source.toText
      text).result = result)
    (hresult : result = .ok text ∨ ∃ d, result = .error (.unparsable d))
    (hvisit : ((visitUnit host plan source target).run.run s : Except Fault Unit × State) =
      (.ok (), s'))
    (hcalm : s'.session.renewals = s.session.renewals) :
    ∃ l copy, s.session.tree.LeadsTo target.names l ∧ s'.session.tree.bytes? l = some copy ∧
      Utf8.encode text = some copy ∧ (copy = bytes ↔ 13 ∉ bytes) := by
  have houtput : (plan.fate s.registry.common source bytes).output? = some text := by
    have hempty : (Registry.empty s.registry.common).common = s.registry.common := rfl
    have halone := SourceUnit.process_result_congr hempty plan.ns.plain plan.function.plain
      source.toText text
    simp only [Plan.fate, hsize, htext, Plan.textFate]
    rw [halone, hprocess]
    obtain rfl | ⟨d, rfl⟩ := hresult
    · rfl
    · rfl
  have hvisited : Visited plan target (plan.fate s.registry.common source bytes) s s' :=
    (after_visitUnit hread).of_ok hvisit
  obtain ⟨l, hleads, -, out, hout, hbytes⟩ := hvisited.written hcalm.le hdry text houtput
  obtain ⟨copy, hcopy, hiff⟩ := Text.exists_encode_of_ofBytes? htext
  obtain rfl := Option.some.inj (hcopy.symm.trans hout)
  exact ⟨l, copy, hleads, hbytes, hcopy, hiff⟩

theorem visitUnit_copies_oneUnit :
    ∃ s', ((visitUnit .silent (Plan.ofRoots ⟨1, ["src"]⟩ ⟨1, ["out"]⟩) ⟨1, ["src", "a.vue"]⟩
        ⟨1, ["out", "a.vue"]⟩).run.run (.start oneUnit) : Except Fault Unit × State) =
          (.ok (), s') ∧
      ∃ l, oneUnit.LeadsTo ["out", "a.vue"] l ∧ s'.session.tree.bytes? l = some [97] := by
  have hvisit : ((visitUnit .silent (Plan.ofRoots ⟨1, ["src"]⟩ ⟨1, ["out"]⟩) ⟨1, ["src", "a.vue"]⟩
      ⟨1, ["out", "a.vue"]⟩).run.run (.start oneUnit) : Except Fault Unit × State).1 = .ok () := by
    cbv
  have hprocess : (SourceUnit.process (.empty (.ofList [] []))
      (Plan.ofRoots ⟨1, ["src"]⟩ ⟨1, ["out"]⟩).ns.plain
      (Plan.ofRoots ⟨1, ["src"]⟩ ⟨1, ["out"]⟩).function.plain
      (Path.toText ⟨1, ["src", "a.vue"]⟩) "a").result = .ok "a" := by
    cbv
  have hread : (State.start oneUnit).session.tree.readBytes ⟨1, ["src", "a.vue"]⟩ = .ok [97] := by
    cbv
  refine ⟨_, Prod.ext hvisit rfl, ?_⟩
  obtain ⟨l, copy, hleads, hbytes, -, hiff⟩ := visitUnit_copies .silent
    (Plan.ofRoots ⟨1, ["src"]⟩ ⟨1, ["out"]⟩) rfl hread (by cbv) (by cbv) hprocess (.inl rfl)
    (Prod.ext hvisit rfl) (by cbv)
  exact ⟨l, hleads, by rw [hbytes, hiff.mpr (by decide)]⟩

/-- A tree with one unit, whose line ends with a carriage return and a line feed. -/
def crlfUnit : FileTree :=
  ⟨[(["src"], .directory), (["src", "a.vue"], .file [97, 13, 10] 0o644)]⟩

/-- The carriage return is not copied, although nothing is rewritten. -/
theorem visitUnit_drops_carriage_return :
    crlfUnit.readBytes ⟨1, ["src", "a.vue"]⟩ = .ok [97, 13, 10] ∧
    Text.ofBytes? [97, 13, 10] = some "a\n" ∧
    (SourceUnit.process (.empty (.ofList [] []))
      (Plan.ofRoots ⟨1, ["src"]⟩ ⟨1, ["out"]⟩).ns.plain
      (Plan.ofRoots ⟨1, ["src"]⟩ ⟨1, ["out"]⟩).function.plain
      (Path.toText ⟨1, ["src", "a.vue"]⟩) "a\n").result = .ok "a\n" ∧
    ((visitUnit .silent (Plan.ofRoots ⟨1, ["src"]⟩ ⟨1, ["out"]⟩) ⟨1, ["src", "a.vue"]⟩
      ⟨1, ["out", "a.vue"]⟩).run.run (.start crlfUnit) : Except Fault Unit × State).1 = .ok () ∧
    ((visitUnit .silent (Plan.ofRoots ⟨1, ["src"]⟩ ⟨1, ["out"]⟩) ⟨1, ["src", "a.vue"]⟩
      ⟨1, ["out", "a.vue"]⟩).run.run (.start crlfUnit) :
        Except Fault Unit × State).2.session.tree.bytes? ["out", "a.vue"] = some [97, 10] :=
  ⟨by cbv, by cbv, by cbv, by cbv, by cbv⟩

end Run

end LocaleLift
