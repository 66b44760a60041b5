/-
Which arguments ask for a source to be worked on.  There is one path at most, and the option for the
tokens once at most and in front of any separator; in whatever order they come, all other arguments
ask for help or the version, or are an error.
-/
import ExprLang.CommandLine.Arguments

namespace ExprLang

namespace Flag

theorem eq_name_of_ofName? {name : String} {flag : Flag} (hflag : ofName? name = some flag) :
    name = flag.name := by
  have hsame := List.find?_some hflag
  exact (of_decide_eq_true hsame).symm

theorem ofLetter?_ne_tokens (letter : Char) : ofLetter? letter ≠ some tokens := by
  unfold ofLetter?
  split <;> simp

end Flag

namespace Argument

variable {text : String}

theorem eq_of_ofText_separator (hform : ofText text = .separator) : text = "--" := by
  unfold ofText at hform
  split at hform
  · next htext => exact String.toList_inj.1 htext
  all_goals contradiction

/-- An argument is a path unless a hyphen with something behind it stands at its front. -/
theorem ofText_eq_path_iff :
    ofText text = .path text ↔ text = "-" ∨ text.toList.head? ≠ some '-' := by
  have hhyphen : text = "-" ↔ text.toList = ['-'] := String.toList_inj.symm
  rw [hhyphen]
  unfold ofText
  split
  · next htext => simp [htext]
  · next htext => simp [htext]
  · next htext => simp [htext]
  · next hshort =>
      refine iff_of_true rfl ?_
      rcases htext : text.toList with _ | ⟨c, _ | ⟨d, rest⟩⟩
      · simp
      · simp [Classical.em]
      · refine Or.inr fun hhead => ?_
        obtain rfl : c = '-' := by simpa using hhead
        exact hshort d rest htext

theorem eq_of_ofText_path {path : String} (hform : ofText text = .path path) : path = text := by
  unfold ofText at hform
  split at hform
  case h_4 => exact (Argument.path.inj hform).symm
  all_goals contradiction

/-- With no value a long option is its name behind two hyphens. -/
theorem eq_of_ofText_long {name : String} (hform : ofText text = .long name none) :
    text = "--" ++ name := by
  unfold ofText at hform
  split at hform
  case h_2 rest _ htext =>
    obtain ⟨hname, hvalue⟩ := Argument.long.inj hform
    have hnone : rest.dropWhile (· != '=') = [] := by
      split at hvalue
      · assumption
      · contradiction
    have hrest : rest.takeWhile (· != '=') = rest := by
      have hsplit := List.takeWhile_append_dropWhile (p := (· != '=')) (l := rest)
      rwa [hnone, List.append_nil] at hsplit
    rw [hrest] at hname
    apply String.toList_inj.1
    simp [htext, ← hname]
  all_goals contradiction

end Argument

namespace Request

/-- Arguments that ask for a source to be worked on, with the paths among them and whether the
tokens are to be listed.  In front of a separator there are paths and the option for the tokens,
which is there once at most; behind it there are only paths. -/
inductive Asks : List String → List String → Bool → Prop
  | nil : Asks [] [] false
  | separator (paths : List String) : Asks ("--" :: paths) paths false
  | path {text : String} {rest paths : List String} {listTokens : Bool} :
      Argument.ofText text = .path text → Asks rest paths listTokens →
      Asks (text :: rest) (text :: paths) listTokens
  | tokens {rest paths : List String} : Asks rest paths false →
      Asks (Flag.tokens.longForm :: rest) paths true

variable {arguments paths : List String} {seen : Seen} {path : Option String} {listTokens : Bool}

theorem ofSeen_eq_process_iff :
    ofSeen seen = .process listTokens path ↔
      seen.listTokens = listTokens ∧ path = seen.path ∧ path ≠ some "" := by
  unfold ofSeen
  split <;> simp_all [eq_comm]

/-- One more path is taken only if it is the first. -/
theorem afterPath_eq_process_iff {text : String} {next : Seen → Request} :
    afterPath text seen next = .process listTokens path ↔
      seen.path = none ∧ next { seen with path := some text } = .process listTokens path := by
  unfold afterPath
  split <;> simp_all

/-- The option for the tokens is taken only once, and not behind an empty path. -/
theorem afterFlag_eq_process_iff {flag : Flag} {next : Seen → Request} :
    afterFlag flag seen next = .process listTokens path ↔
      flag = .tokens ∧ seen.path ≠ some "" ∧ seen.listTokens = false ∧
        next { seen with listTokens := true } = .process listTokens path := by
  unfold afterFlag
  split
  · simp_all
  · cases flag with
    | tokens => cases hseen : seen.listTokens <;> simp_all
    | help | version => simp

/-- The paths that have been seen and those that come next are one at most, which is the path. -/
theorem ofPathsAfter_eq_process_iff :
    ofPathsAfter paths seen = .process listTokens path ↔
      seen.listTokens = listTokens ∧ path.toList = seen.path.toList ++ paths ∧ path ≠ some "" := by
  induction paths generalizing seen with
  | nil =>
      rw [ofPathsAfter, ofSeen_eq_process_iff]
      cases path <;> cases seen.path <;> simp
  | cons text rest ih =>
      rw [ofPathsAfter, afterPath_eq_process_iff, ih]
      cases seen.path with
      | none => simp
      | some first => cases path <;> simp

/-- Arguments that ask for a source to be worked on behind what has been seen do so where nothing
has been seen that goes against them. -/
theorem Asks.ofArgumentsAfter_eq {asked : Bool} (hasks : Asks arguments paths asked)
    (hpaths : path.toList = seen.path.toList ++ paths) (hpath : path ≠ some "")
    (honce : (seen.listTokens && asked) = false) :
    ofArgumentsAfter arguments seen = .process (seen.listTokens || asked) path := by
  induction hasks generalizing seen with
  | nil => exact ofPathsAfter_eq_process_iff.2 ⟨by simp, hpaths, hpath⟩
  | separator paths => exact ofPathsAfter_eq_process_iff.2 ⟨by simp, hpaths, hpath⟩
  | @path text rest paths asked hform hasks ih =>
      have hfirst : seen.path = none := by
        cases hseen : seen.path with
        | none => rfl
        | some first => cases path <;> simp_all
      rw [ofArgumentsAfter, hform]
      exact afterPath_eq_process_iff.2 ⟨hfirst, ih (by simpa [hfirst] using hpaths) honce⟩
  | @tokens rest paths hasks ih =>
      have hfull : seen.path ≠ some "" := by
        rintro hseen
        cases path <;> simp_all
      have honce : seen.listTokens = false := by simpa using honce
      rw [ofArgumentsAfter]
      have hrest := @ih { seen with listTokens := true } hpaths rfl
      exact afterFlag_eq_process_iff.2 ⟨rfl, hfull, honce, by simpa using hrest⟩

/-- What asks for a source to be worked on, behind what has been seen. -/
theorem exists_asks (hprocess : ofArgumentsAfter arguments seen = .process listTokens path) :
    ∃ paths asked, Asks arguments paths asked ∧ path.toList = seen.path.toList ++ paths ∧
      path ≠ some "" ∧ (seen.listTokens && asked) = false ∧
      listTokens = (seen.listTokens || asked) := by
  induction arguments generalizing seen with
  | nil =>
      obtain ⟨rfl, rfl, hpath⟩ := ofSeen_eq_process_iff.1 hprocess
      exact ⟨[], false, .nil, by simp, hpath, by simp⟩
  | cons text rest ih =>
      rw [ofArgumentsAfter] at hprocess
      cases hform : Argument.ofText text with
      | separator =>
          rw [hform] at hprocess
          obtain rfl := Argument.eq_of_ofText_separator hform
          obtain ⟨rfl, hpaths, hpath⟩ := ofPathsAfter_eq_process_iff.1 hprocess
          exact ⟨rest, false, .separator rest, hpaths, hpath, by simp⟩
      | path found =>
          rw [hform] at hprocess
          obtain rfl := Argument.eq_of_ofText_path hform
          obtain ⟨hfirst, hrest⟩ := afterPath_eq_process_iff.1 hprocess
          obtain ⟨paths, asked, hasks, hpaths, hlater⟩ := ih hrest
          exact ⟨_, asked, .path hform hasks, by simpa [hfirst] using hpaths, hlater⟩
      | long name value =>
          rw [hform] at hprocess
          dsimp only at hprocess
          split at hprocess
          · contradiction
          · contradiction
          · next flag hflag =>
              obtain ⟨rfl, -, honce, hrest⟩ := afterFlag_eq_process_iff.1 hprocess
              obtain rfl := Argument.eq_of_ofText_long hform
              obtain rfl := Flag.eq_name_of_ofName? hflag
              obtain ⟨paths, asked, hasks, hpaths, hpath, htwice, rfl⟩ := ih hrest
              obtain rfl : asked = false := htwice
              exact ⟨paths, true, .tokens hasks, hpaths, hpath, by simp [honce], by simp⟩
      | short letter =>
          rw [hform] at hprocess
          dsimp only at hprocess
          split at hprocess
          · contradiction
          · next flag hflag =>
              obtain ⟨rfl, -⟩ := afterFlag_eq_process_iff.1 hprocess
              exact absurd hflag (Flag.ofLetter?_ne_tokens letter)

/-- Just those arguments ask for the source at a path, or for what comes in, to be worked on. -/
theorem ofArguments_eq_process_iff :
    ofArguments arguments = .process listTokens path ↔
      Asks arguments path.toList listTokens ∧ path ≠ some "" := by
  constructor
  · intro hprocess
    obtain ⟨paths, asked, hasks, hpaths, hpath, -, rfl⟩ := exists_asks hprocess
    exact ⟨by simpa [hpaths, Seen.nothing] using hasks, hpath⟩
  · rintro ⟨hasks, hpath⟩
    exact hasks.ofArgumentsAfter_eq rfl hpath rfl

/-- Behind a separator the option is a path. -/
example : ofArguments ["--tokens", "--", "--tokens"] = .process true (some "--tokens") := by
  decide +kernel

end Request

end ExprLang
