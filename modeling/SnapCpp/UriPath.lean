import SnapCpp.QString
import SnapCpp.StackMachine

/-!
The path of a URI as a list of segments. A segment `..` takes the one in front of it away, and is
refused where there is none. A path that is set loses its `.` segments as well, while the path of
a URI that is read keeps them.
-/
namespace SnapCpp.UriPath

open QString StackMachine

def dot : QString := ascii "."

def dotDot : QString := ascii ".."

/-- What the loop of `set_path()` does at a segment. -/
def setPathKind (s : QString) : Kind :=
  if s = dot then .skip
  else if s = dotDot then .pop
  else .push

/-- What the loop of `set_uri()` does at a segment. -/
def setUriKind (s : QString) : Kind := if s = dotDot then .pop else .push

def combined (path : List QString) (uriPath : QString) : QString :=
  if (uriPath = [] ∨ uriPath.head? ≠ some slash) ∧ path ≠ [] then
    [slash].intercalate path ++ slash :: uriPath
  else uriPath

/-- `split('/', QString::SkipEmptyParts)`. -/
def skipEmptyParts (s : QString) : List QString := (splitSlash s).filter (· ≠ [])

/-- The path that is reported to have too many `..`. -/
structure InvalidPath where
  path : QString
deriving DecidableEq

/-- `set_path()`, with the path that the object has afterwards. -/
def setPath (path : List QString) (uriPath : QString) : Except InvalidPath Unit × List QString :=
  match removeFrom setPathKind (skipEmptyParts (combined path uriPath)) 0 with
  | none => (.error ⟨combined path uriPath⟩, path)
  | some p => (.ok (), p)

/-- The loop of `set_uri()`. -/
def removeParents (uriPath : List QString) : Option (List QString) :=
  removeFrom setUriKind uriPath 0

/-- What a segment is for: an empty one and `.` for nothing, and `..` for the one in front. -/
def segmentKind (s : QString) : Kind :=
  if s = [] ∨ s = dot then .skip
  else if s = dotDot then .pop
  else .push

/-- Some of the first segments go back further than the others go. -/
def Escapes (kind : QString → Kind) (l : List QString) : Prop :=
  ∃ front, front <+: l ∧ pushes kind front < pops kind front

structure Normalises (path : List QString) (uriPath : QString) (uriSegments : List QString) :
    Prop where
  refused : (∃ e, (setPath path uriPath).1 = .error e) ↔
    Escapes segmentKind (splitSlash (combined path uriPath))
  unchanged : ∀ e, (setPath path uriPath).1 = .error e → (setPath path uriPath).2 = path
  normalised : (setPath path uriPath).1 = .ok () →
    normalise segmentKind (splitSlash (combined path uriPath)) = some (setPath path uriPath).2
  canonical : (setPath path uriPath).1 = .ok () →
    ∀ s ∈ (setPath path uriPath).2, s ≠ [] ∧ s ≠ dot ∧ s ≠ dotDot
  parents : removeParents uriSegments = normalise segmentKind uriSegments

variable {kind : QString → Kind} {l : List QString}

theorem normalise_eq_none_iff : normalise kind l = none ↔ Escapes kind l := by
  rw [normalise, Option.map_eq_none_iff, run_eq_none_iff]
  simp [Escapes]

theorem segmentKind_push {s : QString} (h : segmentKind s = .push) :
    s ≠ [] ∧ s ≠ dot ∧ s ≠ dotDot := by
  rw [segmentKind] at h
  split_ifs at h with hskip hpop
  rw [not_or] at hskip
  exact ⟨hskip.1, hskip.2, hpop⟩

theorem normalise_filter (l : List QString) :
    normalise segmentKind (l.filter (· ≠ [])) = normalise segmentKind l := by
  have hrun : ∀ stack, run segmentKind stack (l.filter (· ≠ [])) = run segmentKind stack l := by
    induction l with
    | nil => exact fun stack => rfl
    | cons s rest ih =>
      intro stack
      by_cases hs : s = []
      · have hskip : segmentKind s = .skip := if_pos (Or.inl hs)
        rw [List.filter_cons_of_neg (by simpa using hs), run_skip hskip, ih]
      · rw [List.filter_cons_of_pos (by simpa using hs)]
        cases hkind : segmentKind s with
        | skip => rw [run_skip hkind, run_skip hkind, ih]
        | push => rw [run_push hkind, run_push hkind, ih]
        | pop =>
          cases stack with
          | nil => rw [run_pop_nil hkind, run_pop_nil hkind]
          | cons b stack => rw [run_pop_cons hkind, run_pop_cons hkind, ih]
  rw [normalise, normalise, hrun]

theorem removeFrom_setPathKind (s : QString) :
    removeFrom setPathKind (skipEmptyParts s) 0 = normalise segmentKind (splitSlash s) := by
  have hkind : ∀ a ∈ skipEmptyParts s, setPathKind a = segmentKind a := by
    intro a ha
    have hne : a ≠ [] := by simpa using List.of_mem_filter ha
    rw [setPathKind, segmentKind]
    simp only [hne, false_or]
  rw [removeFrom_zero, normalise, run_congr hkind, ← normalise, skipEmptyParts, normalise_filter]

theorem setUriKind_spec (s : QString) : (segmentKind s = .skip ∧ setUriKind s = .push) ∨
    (segmentKind s ≠ .skip ∧ setUriKind s = segmentKind s) := by
  rw [segmentKind, setUriKind]
  split_ifs with hskip hpop hpop
  · exfalso
    rcases hskip with hnil | hdot
    · rw [hnil] at hpop
      exact absurd hpop (by decide)
    · rw [hdot] at hpop
      exact absurd hpop (by decide)
  · exact Or.inl ⟨rfl, rfl⟩
  · exact Or.inr ⟨by simp, rfl⟩
  · exact Or.inr ⟨by simp, rfl⟩

theorem counts_setUriKind (l : List QString) : pops setUriKind l = pops segmentKind l ∧
    pushes setUriKind l = pushes segmentKind l + l.countP (segmentKind · = .skip) := by
  induction l with
  | nil => exact ⟨rfl, rfl⟩
  | cons s rest ih =>
    rw [(counts_cons s rest).1, (counts_cons s rest).2, (counts_cons s rest).1,
      (counts_cons s rest).2, List.countP_cons, ih.1, ih.2]
    rcases setUriKind_spec s with ⟨hskip, hpush⟩ | ⟨hkeep, hsame⟩
    · rw [hskip, hpush]
      simp
      omega
    · rw [hsame]
      simp only [hkeep, decide_false]
      constructor
      · trivial
      · simp
        omega

theorem Escapes.segmentKind (h : Escapes setUriKind l) : Escapes segmentKind l := by
  obtain ⟨front, hfront, hlt⟩ := h
  refine ⟨front, hfront, ?_⟩
  have hcounts := counts_setUriKind front
  omega

/-- The loop of `set_uri()` normalises segments where none is empty or `.`, and refuses the others
together with the ones that escape all the same. -/
theorem removeParents_iff (l : List QString) :
    removeParents l = normalise segmentKind l ↔
      (∀ s ∈ l, s ≠ [] ∧ s ≠ dot) ∨ Escapes setUriKind l := by
  rw [removeParents, removeFrom_zero]
  constructor
  · intro heq
    by_cases hescape : Escapes setUriKind l
    · exact Or.inr hescape
    · refine Or.inl ?_
      have hne : normalise setUriKind l ≠ none :=
        fun hnone => hescape (normalise_eq_none_iff.mp hnone)
      obtain ⟨r, hr⟩ := Option.ne_none_iff_exists'.mp hne
      obtain ⟨left, hleft, rfl⟩ := Option.map_eq_some_iff.mp hr
      obtain ⟨right, hright, hsame⟩ := Option.map_eq_some_iff.mp (heq.symm.trans hr)
      have hlengths := congrArg List.length hsame
      rw [List.length_reverse, List.length_reverse] at hlengths
      have hleft := length_run hleft
      have hright := length_run hright
      have hcounts := counts_setUriKind l
      have hskip : l.countP (UriPath.segmentKind · = .skip) = 0 := by omega
      intro s hs
      have hkeep := List.countP_eq_zero.mp hskip s hs
      rw [decide_eq_true_iff, UriPath.segmentKind] at hkeep
      split_ifs at hkeep with hempty
      · exact absurd rfl hkeep
      · exact not_or.mp hempty
      · exact not_or.mp hempty
  · rintro (hplain | hescape)
    · have hkind : ∀ s ∈ l, setUriKind s = UriPath.segmentKind s := by
        intro s hs
        obtain ⟨hne, hdot⟩ := hplain s hs
        rw [setUriKind, UriPath.segmentKind]
        simp only [hne, hdot, or_self, if_false]
      rw [normalise, normalise, run_congr hkind]
    · rw [normalise_eq_none_iff.mpr hescape, normalise_eq_none_iff.mpr hescape.segmentKind]

/-- A path is always normalised when it is set, and the one of a URI where no segment is empty or
`.` unless it escapes. -/
theorem normalises_iff (path : List QString) (uriPath : QString) (uriSegments : List QString) :
    Normalises path uriPath uriSegments ↔
      (∀ s ∈ uriSegments, s ≠ [] ∧ s ≠ dot) ∨ Escapes setUriKind uriSegments := by
  rw [← removeParents_iff]
  refine ⟨fun h => h.parents, fun hparents => ?_⟩
  have hloop := removeFrom_setPathKind (combined path uriPath)
  cases hresult : normalise segmentKind (splitSlash (combined path uriPath)) with
  | none =>
    have hset : setPath path uriPath = (.error ⟨combined path uriPath⟩, path) := by
      rw [setPath, hloop, hresult]
    constructor
    · rw [hset]
      exact iff_of_true ⟨_, rfl⟩ (normalise_eq_none_iff.mp hresult)
    · rw [hset]
      exact fun _ _ => rfl
    · rw [hset]
      exact fun hok => by cases hok
    · rw [hset]
      exact fun hok => by cases hok
    · exact hparents
  | some p =>
    have hset : setPath path uriPath = (.ok (), p) := by
      rw [setPath, hloop, hresult]
    obtain ⟨stack, hrun, rfl⟩ := Option.map_eq_some_iff.mp hresult
    constructor
    · rw [hset, ← normalise_eq_none_iff, hresult]
      refine iff_of_false ?_ (by simp)
      rintro ⟨e, herror⟩
      cases herror
    · rw [hset]
      exact fun _ herror => by cases herror
    · rw [hset]
      exact fun _ => hresult
    · rw [hset]
      intro _ s hs
      rcases mem_run hrun s (List.mem_reverse.mp hs) with hmem | ⟨-, hpush⟩
      · cases hmem
      · exact segmentKind_push hpush
    · exact hparents

/-- The path of a URI keeps a segment `.` that a path that is set loses. -/
theorem dot_segment : (setPath [] (ascii "/a/./b")).2 = [ascii "a", ascii "b"] ∧
    removeParents [ascii "a", ascii ".", ascii "b"] = some [ascii "a", ascii ".", ascii "b"] ∧
    ¬ ∀ path uriPath uriSegments, Normalises path uriPath uriSegments := by
  refine ⟨?_, ?_, fun h => ?_⟩
  · rw [setPath, removeFrom_setPathKind]
    decide
  · rw [removeParents, removeFrom_zero]
    decide
  · have hparents := (h [] [] [ascii "a", ascii ".", ascii "b"]).parents
    rw [removeParents, removeFrom_zero] at hparents
    exact absurd hparents (by decide)

end SnapCpp.UriPath
