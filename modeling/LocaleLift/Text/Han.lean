import LocaleLift.Text

/-! Chinese ideographs, and the division of a text at the runs of them. -/
namespace LocaleLift

def CodePoint.isHan (c : CodePoint) : Bool :=
  c.inRange 0x4E00 0x9FA5

/-- How far a run of Chinese goes on after its first ideograph. -/
inductive RunStyle where
  /-- Only ideographs belong to a run. -/
  | ideographs
  /-- The full-width colon, comma, full stop and exclamation mark belong to a run they follow. -/
  | phrase
  deriving DecidableEq, Repr

/-- Whether a code point goes on with a run that has begun. -/
def RunStyle.joins : RunStyle → CodePoint → Bool
  | .ideographs, c => c.isHan
  | .phrase, c => c.isHan || [0xFF1A, 0xFF0C, 0x3002, 0xFF01].contains c.toNat

/-- A piece of a text is a run of Chinese, or what stands between two runs. -/
inductive Piece where
  | plain (t : Text)
  | run (t : Text)
  deriving DecidableEq, Repr

namespace Piece

def text : Piece → Text
  | plain t => t
  | run t => t

def run? : Piece → Option Text
  | plain _ => none
  | run t => some t

/-- Put a code point before the pieces: it joins the first of its own kind, or stands alone. -/
def cons (inRun : Bool) (c : CodePoint) : List Piece → List Piece
  | plain t :: ps => if inRun then run [c] :: plain t :: ps else plain (c :: t) :: ps
  | run t :: ps => if inRun then run (c :: t) :: ps else plain [c] :: run t :: ps
  | [] => if inRun then [run [c]] else [plain [c]]

end Piece

namespace Text

def hasHan (t : Text) : Bool :=
  t.any (·.isHan)

private def piecesFrom (style : RunStyle) : Bool → Text → List Piece
  | _, [] => []
  | inRun, c :: t =>
    let here := if inRun then style.joins c else c.isHan
    Piece.cons here c (piecesFrom style here t)

/-- The pieces of a text in order; runs are as long as they can be, and never touch. -/
def pieces (style : RunStyle) (t : Text) : List Piece :=
  piecesFrom style false t

private theorem flatten_cons (inRun : Bool) (c : CodePoint) (ps : List Piece) :
    (Piece.cons inRun c ps).flatMap Piece.text = c :: ps.flatMap Piece.text := by
  cases ps with
  | nil => cases inRun <;> rfl
  | cons p ps => cases p <;> cases inRun <;> rfl

/-- Nothing is lost: the pieces of a text make it up. -/
theorem flatten_pieces (style : RunStyle) (t : Text) :
    (pieces style t).flatMap Piece.text = t := by
  have hfrom (inRun : Bool) : (piecesFrom style inRun t).flatMap Piece.text = t := by
    induction t generalizing inRun with
    | nil => rfl
    | cons c t ih => rw [piecesFrom, flatten_cons, ih]
  exact hfrom false

def runs (style : RunStyle) (t : Text) : List Text :=
  (pieces style t).filterMap Piece.run?

private theorem any_run_cons (inRun : Bool) (c : CodePoint) (ps : List Piece) :
    (Piece.cons inRun c ps).any (fun p => p.run?.isSome) =
      (inRun || ps.any fun p => p.run?.isSome) := by
  cases ps with
  | nil => cases inRun <;> rfl
  | cons p ps => cases p <;> cases inRun <;> rfl

/-- There is a run exactly in a text with an ideograph, which it begins with. -/
theorem any_run_pieces (style : RunStyle) (t : Text) :
    (pieces style t).any (fun p => p.run?.isSome) = hasHan t := by
  induction t with
  | nil => rfl
  | cons c t ih =>
    have hcons : pieces style (c :: t) = Piece.cons c.isHan c (piecesFrom style c.isHan t) := rfl
    have hhan : hasHan (c :: t) = (c.isHan || hasHan t) := rfl
    rw [hcons, any_run_cons, hhan]
    cases c.isHan with
    | true => rfl
    | false => exact ih

theorem runs_eq_nil {style : RunStyle} {t : Text} : runs style t = [] ↔ hasHan t = false := by
  rw [← any_run_pieces style, runs, List.filterMap_eq_nil_iff, List.any_eq_false]
  refine forall₂_congr fun p _ => ?_
  cases p <;> simp [Piece.run?]

/-- What runs are made of: an ideograph first, and then all that goes on with it. -/
def IsRun (style : RunStyle) (r : Text) : Prop :=
  ∃ c t, r = c :: t ∧ c.isHan = true ∧ ∀ d ∈ t, style.joins d = true

private theorem joins_of_isHan (style : RunStyle) {c : CodePoint} (h : c.isHan = true) :
    style.joins c = true := by
  cases style <;> simp [RunStyle.joins, h]

private theorem isRun_piecesFrom (style : RunStyle) (inRun : Bool) (t : Text) :
    (∀ r, .run r ∈ (piecesFrom style inRun t).tail → IsRun style r) ∧
      ∀ r, (piecesFrom style inRun t).head? = some (.run r) →
        (∀ d ∈ r, style.joins d = true) ∧ (inRun = false → IsRun style r) := by
  induction t generalizing inRun with
  | nil => exact ⟨nofun, nofun⟩
  | cons c t ih =>
    rw [piecesFrom]
    generalize hhere : (if inRun then style.joins c else c.isHan) = here
    obtain ⟨htail, hhead⟩ := ih here
    generalize piecesFrom style here t = ps at htail hhead
    have hjoins (h : here = true) : style.joins c = true := by
      subst h
      cases inRun with
      | true => exact hhere
      | false => exact joins_of_isHan style hhere
    have hrun (h : here = true) {u : Text} (hu : ∀ d ∈ u, style.joins d = true) :
        (∀ d ∈ c :: u, style.joins d = true) ∧ (inRun = false → IsRun style (c :: u)) := by
      refine ⟨List.forall_mem_cons.mpr ⟨hjoins h, hu⟩, ?_⟩
      rintro rfl
      exact ⟨c, u, rfl, hhere.trans h, hu⟩
    cases ps with
    | nil =>
      cases here with
      | false => exact ⟨nofun, nofun⟩
      | true =>
        refine ⟨nofun, ?_⟩
        rintro _ ⟨⟩
        exact hrun rfl (List.forall_mem_nil _)
    | cons p ps =>
      cases p with
      | plain u =>
        cases here with
        | false => exact ⟨htail, nofun⟩
        | true =>
          refine ⟨fun r hr => ?_, ?_⟩
          · rcases List.mem_cons.mp hr with hr | hr
            · cases hr
            · exact htail r hr
          · rintro _ ⟨⟩
            exact hrun rfl (List.forall_mem_nil _)
      | run u =>
        obtain ⟨hu, hfirst⟩ := hhead u rfl
        cases here with
        | false =>
          refine ⟨fun r hr => ?_, nofun⟩
          rcases List.mem_cons.mp hr with hr | hr
          · cases hr
            exact hfirst rfl
          · exact htail r hr
        | true =>
          refine ⟨htail, ?_⟩
          rintro _ ⟨⟩
          exact hrun rfl hu

theorem isRun_of_mem_pieces {style : RunStyle} {t r : Text} (h : .run r ∈ pieces style t) :
    IsRun style r := by
  obtain ⟨htail, hhead⟩ := isRun_piecesFrom style false t
  rw [pieces] at h
  generalize piecesFrom style false t = ps at h htail hhead
  cases ps with
  | nil => cases h
  | cons p ps =>
    rcases List.mem_cons.mp h with rfl | h
    · exact (hhead r rfl).2 rfl
    · exact htail r h

private theorem of_mem_cons {inRun : Bool} {c : CodePoint} {ps : List Piece} {u : Text}
    (h : .plain u ∈ Piece.cons inRun c ps) :
    .plain u ∈ ps ∨ inRun = false ∧ ∃ v, u = c :: v ∧ (v = [] ∨ .plain v ∈ ps) := by
  cases ps with
  | nil => cases inRun <;> simp_all [Piece.cons]
  | cons p ps =>
    cases p <;> cases inRun <;> simp only [Piece.cons, List.mem_cons] at h ⊢ <;> grind

private theorem hasHan_piecesFrom {style : RunStyle} {inRun : Bool} {t u : Text}
    (h : .plain u ∈ piecesFrom style inRun t) : hasHan u = false := by
  induction t generalizing inRun u with
  | nil => cases h
  | cons c t ih =>
    rw [piecesFrom] at h
    generalize hhere : (if inRun then style.joins c else c.isHan) = here at h
    rcases of_mem_cons h with h | ⟨rfl, v, rfl, hv⟩
    · exact ih h
    have hc : c.isHan = false := by
      cases hhan : c.isHan with
      | false => rfl
      | true => simp [joins_of_isHan style hhan, hhan] at hhere
    have hrest : hasHan v = false := by
      rcases hv with rfl | hv
      · rfl
      · exact ih hv
    rw [hasHan, List.any_cons, hc, Bool.false_or]
    exact hrest

/-- Between runs there is no Chinese. -/
theorem hasHan_of_mem_pieces {style : RunStyle} {t u : Text} (h : .plain u ∈ pieces style t) :
    hasHan u = false :=
  hasHan_piecesFrom h

/-- What goes on with no run is divided as if none stood before it. -/
private theorem piecesFrom_of_not_joins {style : RunStyle} {t : Text}
    (h : ∀ c ∈ t.head?, style.joins c = false) (inRun : Bool) :
    piecesFrom style inRun t = pieces style t := by
  cases t with
  | nil => cases inRun <;> rfl
  | cons c t =>
    have hjoins : style.joins c = false := h c rfl
    have hhan : c.isHan = false := by
      cases hc : c.isHan with
      | false => rfl
      | true => exact (joins_of_isHan style hc).symm.trans hjoins
    cases inRun with
    | false => rfl
    | true => rw [pieces, piecesFrom, piecesFrom, if_pos rfl, if_neg (by simp), hjoins, hhan]

private theorem pieces_cons {style : RunStyle} {c : CodePoint} (hc : c.isHan = false) (t : Text) :
    pieces style (c :: t) = Piece.cons false c (pieces style t) := by
  rw [pieces, piecesFrom, if_neg (by simp), hc, pieces]

private theorem piecesFrom_run {style : RunStyle} {r rest : Text}
    (hend : ∀ c ∈ rest.head?, style.joins c = false) (hr : ∀ d ∈ r, style.joins d = true)
    {inRun : Bool} {c : CodePoint} (hc : (if inRun then style.joins c else c.isHan) = true) :
    piecesFrom style inRun (c :: (r ++ rest)) = .run (c :: r) :: pieces style rest := by
  induction r generalizing inRun c with
  | nil =>
    rw [piecesFrom, hc, List.nil_append, piecesFrom_of_not_joins hend]
    cases rest with
    | nil => rfl
    | cons d rest =>
      have hhan : d.isHan = false := by
        cases hd : d.isHan with
        | false => rfl
        | true => exact (joins_of_isHan style hd).symm.trans (hend d rfl)
      rw [pieces_cons hhan]
      cases pieces style rest with
      | nil => rfl
      | cons p ps => cases p <;> rfl
  | cons d r ih =>
    obtain ⟨hd, hr⟩ := List.forall_mem_cons.mp hr
    rw [piecesFrom, hc, List.cons_append, ih hr (by rw [if_pos rfl]; exact hd)]
    rfl

/-- A run is a piece of its own if it is the first of a text and could not be longer. -/
theorem pieces_run {style : RunStyle} {before r rest : Text} (hbefore : hasHan before = false)
    (hr : IsRun style r) (hend : ∀ c ∈ rest.head?, style.joins c = false) :
    pieces style (before ++ (r ++ rest)) =
      (if before = [] then [] else [.plain before]) ++ .run r :: pieces style rest := by
  induction before with
  | nil =>
    obtain ⟨c, t, rfl, hc, ht⟩ := hr
    exact piecesFrom_run hend ht hc
  | cons c before ih =>
    rw [hasHan, List.any_cons, Bool.or_eq_false_iff] at hbefore
    rw [List.cons_append, pieces_cons hbefore.1, ih hbefore.2]
    by_cases hnil : before = []
    · subst hnil
      rfl
    · rw [if_neg hnil, if_neg (List.cons_ne_nil c before)]
      rfl

/-- Without ideographs there is one piece at most. -/
theorem pieces_plain {style : RunStyle} {t : Text} (h : hasHan t = false) :
    pieces style t = if t = [] then [] else [.plain t] := by
  induction t with
  | nil => rfl
  | cons c t ih =>
    rw [hasHan, List.any_cons, Bool.or_eq_false_iff] at h
    rw [pieces_cons h.1, ih h.2]
    by_cases hnil : t = []
    · subst hnil
      rfl
    · rw [if_neg hnil, if_neg (List.cons_ne_nil c t)]
      rfl

/-- A text without its last backslash, if an odd number of them end it. -/
def dropOddBackslash (t : Text) : Text :=
  if (t.reverse.takeWhile (· == .scalar '\\')).length % 2 = 1 then t.dropLast else t

/-- Nothing but a backslash is dropped. -/
theorem dropOddBackslash_eq (t : Text) :
    dropOddBackslash t = t ∨ t = dropOddBackslash t ++ [.scalar '\\'] := by
  rw [dropOddBackslash]
  split
  · rename_i hodd
    right
    cases hlast : t.reverse with
    | nil =>
      rw [hlast] at hodd
      cases hodd
    | cons c s =>
      rw [hlast, List.takeWhile_cons] at hodd
      split at hodd
      · rename_i hc
        obtain rfl := beq_iff_eq.mp hc
        rw [List.reverse_eq_cons_iff] at hlast
        rw [hlast, List.dropLast_concat]
      · cases hodd
  · exact .inl rfl

def wrapRuns (wrap : Text → Text) : List Piece → Text
  | [] => []
  | .plain t :: ps => t ++ wrapRuns wrap ps
  | .run t :: ps => wrap t ++ wrapRuns wrap ps

/-- Without ideographs nothing is wrapped. -/
theorem wrapRuns_pieces {t : Text} (h : hasHan t = false) (style : RunStyle)
    (wrap : Text → Text) : wrapRuns wrap (pieces style t) = t := by
  have hplain (ps : List Piece) (hps : ps.any (fun p => p.run?.isSome) = false) :
      wrapRuns wrap ps = ps.flatMap Piece.text := by
    induction ps with
    | nil => rfl
    | cons p ps ih =>
      cases p with
      | plain t => exact congrArg (t ++ ·) (ih hps)
      | run t => cases hps
  rw [hplain _ ((any_run_pieces style t).trans h), flatten_pieces]

/-- Join pieces of template text, every run wrapped. A backslash that would escape the wrapping
is dropped: before an ideograph it means nothing. -/
def wrapTemplateRuns (wrap : Text → Text) : List Piece → Text
  | [] => []
  | .plain t :: .run r :: ps => dropOddBackslash t ++ wrap r ++ wrapTemplateRuns wrap ps
  | .plain t :: ps => t ++ wrapTemplateRuns wrap ps
  | .run r :: ps => wrap r ++ wrapTemplateRuns wrap ps

end Text
end LocaleLift
