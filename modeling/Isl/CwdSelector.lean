import Mathlib.Data.List.Basic

/-!
# Paths of the cwd selector

The path helpers of `CwdSelector.tsx` and the handlers that change the
working directory. A string is modelled by its list of characters; the string
methods the helpers call are in `Isl.JsString`.

* `relativePath_joinPaths`: joining a relative path to a root and taking it
  back relative to the root gives the path, with the separator `joinPaths`
  added in front when the root has no trailing one, so the round trip holds
  exactly under a root with a trailing separator;
* `getRepoLabel_joinPaths`: the label of a cwd under the root relies on that
  separator;
* `relativePath_joinPaths_eq_iff_label`: the repository label separates the
  root's base name from the path exactly when the round trip fails;
* `submoduleOnChange_refires`, `submoduleSelectValue_joinPaths`: so, under a
  root without a trailing separator, choosing a submodule again asks for the
  change again and the `<select>` falls back to its placeholder.
-/

namespace Isl

namespace JsString

/-- `s.endsWith(suffix)`. -/
def endsWith (s suffix : List Char) : Bool := suffix.isSuffixOf s

/-- `s.includes(c)` for a single character. -/
def includes (s : List Char) (c : Char) : Bool := c ∈ s

/-- `s.slice(0, -n)`: all but the last `n` characters, nothing when `n` is `0`
    (`-0` is `0`). -/
def sliceDropLast (s : List Char) (n : ℕ) : List Char :=
  s.take (if n = 0 then 0 else s.length - n)

/-- `s.replace(pattern, replacement)` with a string pattern: the first
    occurrence of `pattern` is replaced, and `s` is unchanged without one. -/
def replace (s pattern replacement : List Char) : List Char :=
  if pattern.isPrefixOf s then replacement ++ s.drop pattern.length
  else match s with
    | [] => []
    | c :: rest => c :: replace rest pattern replacement

theorem replace_append_of_prefix (pattern rest replacement : List Char) :
    replace (pattern ++ rest) pattern replacement = replacement ++ rest := by
  unfold replace
  rw [if_pos (List.isPrefixOf_iff_prefix.2 (List.prefix_append _ _)), List.drop_left]

end JsString

open JsString

/-- `relativePath(root, path)`: the relative path to `path` from `root`. -/
def relativePath (root : Option (List Char)) (path : List Char) : List Char :=
  match root with
  | none => []
  | some root => if path = [] then [] else replace path root []

/-- `joinPaths(root, path)`: a simple version of `path.join()`. -/
def joinPaths (root path : List Char) : List Char :=
  if endsWith root ['/'] then root ++ path else root ++ '/' :: path

/-- `maybeTrim(s, c)`: trim the suffix `c` if it exists. -/
def maybeTrim (s c : List Char) : List Char :=
  if endsWith s c then sliceDropLast s c.length else s

/-- `guessPathSep(path)`. -/
def guessPathSep (path : List Char) : List Char :=
  if includes path '\\' then ['\\'] else ['/']

/-- `getRepoLabel(repoRoot, cwd)`, given `basename(path, sep)` of
    `shared/utils`. -/
def getRepoLabel (basename : List Char → List Char → List Char) (repoRoot cwd : List Char) :
    List Char :=
  let sep := guessPathSep cwd
  let repoBasename := maybeTrim (basename repoRoot sep) sep
  let repoRelativeCwd := relativePath (some repoRoot) cwd
  if repoRelativeCwd = [] then repoBasename else repoBasename ++ repoRelativeCwd

/-- The path taken back from a joined path: the relative path, after the
    separator `joinPaths` put in when the root had no trailing one. -/
theorem relativePath_joinPaths (root p : List Char) :
    relativePath (some root) (joinPaths root p) =
      if endsWith root ['/'] then p else '/' :: p := by
  unfold joinPaths
  split
  · next h =>
    have hroot : root ≠ [] := by rintro rfl; simp [endsWith] at h
    simp [relativePath, hroot, replace_append_of_prefix]
  · simp [relativePath, replace_append_of_prefix]

/-- The round trip of a relative path through a root gives the path exactly
    when the root has a trailing separator, and the path after a separator
    when it has none. -/
theorem relativePath_joinPaths_round_trip (root p : List Char) :
    (relativePath (some root) (joinPaths root p) = p ↔ endsWith root ['/'] = true) ∧
      (endsWith root ['/'] = false → relativePath (some root) (joinPaths root p) = '/' :: p) := by
  rw [relativePath_joinPaths]
  cases endsWith root ['/'] <;> simp [List.cons_ne_self]

/-- The example of `relativePath`'s comment,
    `relativePath('/home/user', '/home') -> 'user'`, passes the root second;
    at the root `/home` it means, the submodule `user` comes back as `/user`. -/
theorem relativePath_joinPaths_home_user :
    relativePath (some "/home".toList) (joinPaths "/home".toList "user".toList) =
      "/user".toList := by
  decide

/-- The label of a cwd under a root without a trailing separator: the root's
    base name, then the separator that `relativePath` keeps, then the path. -/
theorem getRepoLabel_joinPaths (basename : List Char → List Char → List Char)
    (root p : List Char) (hroot : endsWith root ['/'] = false)
    (hsep : includes (joinPaths root p) '\\' = false) :
    getRepoLabel basename root (joinPaths root p) =
      maybeTrim (basename root ['/']) ['/'] ++ '/' :: p := by
  simp only [getRepoLabel, guessPathSep, hsep, relativePath_joinPaths, hroot]
  simp

theorem getRepoLabel_joinPaths_home :
    endsWith "/home".toList ['/'] = false ∧
      includes (joinPaths "/home".toList "user".toList) '\\' = false ∧
      getRepoLabel (fun _ _ => "home".toList) "/home".toList (joinPaths "/home".toList "user".toList) =
        maybeTrim "home".toList ['/'] ++ '/' :: "user".toList :=
  ⟨by decide, by decide, getRepoLabel_joinPaths _ _ _ (by decide) (by decide)⟩

/-- The repository label runs the root's base name into the path, with no
    separator between, exactly when the round trip holds: no root both finds
    the chosen submodule again and labels it with a separator. -/
theorem relativePath_joinPaths_eq_iff_label (basename : List Char → List Char → List Char)
    (root p : List Char) (hsep : includes (joinPaths root p) '\\' = false) :
    relativePath (some root) (joinPaths root p) = p ↔
      getRepoLabel basename root (joinPaths root p) = maybeTrim (basename root ['/']) ['/'] ++ p := by
  simp only [getRepoLabel, guessPathSep, hsep, relativePath_joinPaths]
  split
  · by_cases hp : p = [] <;> simp [hp]
  · simp [List.cons_ne_self]

theorem relativePath_joinPaths_eq_iff_label_home :
    includes (joinPaths "/home".toList "user".toList) '\\' = false ∧
      (relativePath (some "/home".toList) (joinPaths "/home".toList "user".toList) = "user".toList ↔
        getRepoLabel (fun _ _ => "home".toList) "/home".toList
            (joinPaths "/home".toList "user".toList) =
          maybeTrim "home".toList ['/'] ++ "user".toList) :=
  ⟨by decide, relativePath_joinPaths_eq_iff_label _ _ _ (by decide)⟩

/-! ### Changing the cwd -/

/-- The handlers of the selector that change the cwd: `changeCwd(target)` is
    called when the chosen `key` is not the `current` one. -/
def onChange (key current target : List Char) : Option (List Char) :=
  if key ≠ current then some target else none

/-- A submodule option (`{id: m.path, label: m.name, valid: m.active}`). -/
structure SubmoduleOption where
  /-- `id`, the repo-relative path of the submodule. -/
  id : List Char
  /-- `valid`, whether the submodule is active. -/
  valid : Bool
  deriving DecidableEq

/-- The cwd dropdown's `onChangeSelected`: `value.id !== currentCwd`. -/
def cwdDropdownOnChange (currentCwd value : List Char) : Option (List Char) :=
  onChange value currentCwd value

/-- `CwdSelections`' `onChange`: `newCwd === currentCwd` changes nothing. -/
def cwdSelectionsOnChange (currentCwd newCwd : List Char) : Option (List Char) :=
  onChange newCwd currentCwd newCwd

/-- The submodule selector's `onChangeSelected`: compared with the cwd relative
    to the root, and joined to the root. -/
def submoduleOnChange (repoRoot currentCwd : List Char) (value : SubmoduleOption) :
    Option (List Char) :=
  onChange value.id (relativePath (some repoRoot) currentCwd) (joinPaths repoRoot value.id)

/-- The submodule the selector shows as selected:
    `submoduleOptions.find(opt => opt.id === relativePath(repoRoot, currentCwd))`. -/
def selectedSubmodule (options : List SubmoduleOption) (repoRoot currentCwd : List Char) :
    Option SubmoduleOption :=
  options.find? fun opt => opt.id = relativePath (some repoRoot) currentCwd

/-- Under a root with a trailing separator, the submodule chosen is then
    selected, and choosing it again changes nothing. -/
theorem submoduleOnChange_settles {root : List Char} (hroot : endsWith root ['/'] = true)
    (options : List SubmoduleOption) (value : SubmoduleOption) (hv : value ∈ options) :
    (∃ opt, selectedSubmodule options root (joinPaths root value.id) = some opt ∧
        opt.id = value.id) ∧
      submoduleOnChange root (joinPaths root value.id) value = none := by
  have hrel := relativePath_joinPaths root value.id
  rw [if_pos hroot] at hrel
  refine ⟨?_, by simp [submoduleOnChange, onChange, hrel]⟩
  simp only [selectedSubmodule, hrel]
  cases hf : options.find? (fun opt => decide (opt.id = value.id)) with
  | none => simpa using List.find?_eq_none.1 hf value hv
  | some opt => exact ⟨opt, rfl, by simpa using List.find?_some hf⟩

theorem submoduleOnChange_settles_home :
    endsWith "/home/".toList ['/'] = true ∧ ⟨"user".toList, true⟩ ∈ [SubmoduleOption.mk "user".toList true] ∧
      (∃ opt, selectedSubmodule [⟨"user".toList, true⟩] "/home/".toList
          (joinPaths "/home/".toList "user".toList) = some opt ∧ opt.id = "user".toList) ∧
        submoduleOnChange "/home/".toList (joinPaths "/home/".toList "user".toList)
          ⟨"user".toList, true⟩ = none :=
  ⟨by decide, by simp, @submoduleOnChange_settles "/home/".toList (by decide) [⟨"user".toList, true⟩]
    ⟨"user".toList, true⟩ (by simp)⟩

/-- Under a root without a trailing separator, the chosen submodule comes back
    with a separator in front, so choosing it again asks for the change again. -/
theorem submoduleOnChange_refires {root : List Char} (hroot : endsWith root ['/'] = false)
    (value : SubmoduleOption) :
    submoduleOnChange root (joinPaths root value.id) value = some (joinPaths root value.id) := by
  have hrel := relativePath_joinPaths root value.id
  rw [if_neg (by simp [hroot])] at hrel
  simp [submoduleOnChange, onChange, hrel]

theorem submoduleOnChange_refires_home :
    endsWith "/home".toList ['/'] = false ∧
      submoduleOnChange "/home".toList (joinPaths "/home".toList "user".toList) ⟨"user".toList, true⟩ =
        some (joinPaths "/home".toList "user".toList) :=
  ⟨by decide, submoduleOnChange_refires (by decide) _⟩

/-! ### The selectors -/

/-- The fields of a `CwdInfo` that `useCwdOptions` reads. -/
structure CwdInfo where
  /-- `cwd`. -/
  cwd : List Char
  /-- `repoRelativeCwdLabel?`. -/
  repoRelativeCwdLabel : Option (List Char)
  /-- `repoRoot?`, absent for a cwd outside a repository. -/
  repoRoot : Option (List Char)

/-- A cwd option (`{id, label, valid}`). -/
structure CwdOption where
  /-- `id`, the cwd. -/
  id : List Char
  /-- `label`. -/
  label : List Char
  /-- `valid`, whether the cwd is in a repository. -/
  valid : Bool
  deriving DecidableEq

/-- `useCwdOptions()`. -/
def useCwdOptions (cwds : List CwdInfo) : List CwdOption :=
  cwds.map fun cwd => ⟨cwd.cwd, cwd.repoRelativeCwdLabel.getD cwd.cwd, cwd.repoRoot.isSome⟩

/-- The cwd button of `CwdSelector` in a repository. -/
inductive CwdButton
  /-- A `Button` showing the repository's label. -/
  | button (label : List Char)
  /-- A `ButtonDropdown` of the valid cwds, showing `selected`. -/
  | dropdown (options : List CwdOption) (selected : CwdOption)
  deriving DecidableEq

/-- The cwd button, given the valid cwd options (`cwdOptions`) and whether
    there are active submodules: a plain button with submodules or fewer than
    two cwds, else a dropdown showing the option of the current cwd, or one
    made for it. -/
def cwdButton (basename : List Char → List Char → List Char) (repoRoot currentCwd : List Char)
    (cwdOptions : List CwdOption) (hasSubmodules : Bool) : CwdButton :=
  let repoLabel := getRepoLabel basename repoRoot currentCwd
  if hasSubmodules || cwdOptions.length < 2 then .button repoLabel
  else .dropdown cwdOptions
    ((cwdOptions.find? fun opt => opt.id = currentCwd).getD ⟨currentCwd, repoLabel, true⟩)

/-- `SubmoduleSelector`'s `<select>` `onChange`: the option whose id is the
    value chosen goes to `onChangeSelected`, the submodule handler. -/
def submoduleSelectOnChange (repoRoot currentCwd : List Char) (options : List SubmoduleOption)
    (value : List Char) : Option (List Char) :=
  match options.find? fun opt => opt.id = value with
  | none => none
  | some matching => submoduleOnChange repoRoot currentCwd matching

/-- The `<select>`'s value, `selectedValue ?? ''`: the id of the option of the
    selected submodule, the placeholder `''` without one. -/
def submoduleSelectValue (options : List SubmoduleOption) (selected : Option SubmoduleOption) :
    List Char :=
  ((options.find? fun opt => some opt.id = selected.map (·.id)).map (·.id)).getD []

/-- The `<select>` shows the id of a selected option, and the placeholder
    without one. -/
theorem submoduleSelectValue_eq {options : List SubmoduleOption} {selected : Option SubmoduleOption}
    (h : ∀ opt ∈ selected, opt ∈ options) :
    submoduleSelectValue options selected = (selected.map (·.id)).getD [] := by
  unfold submoduleSelectValue
  cases selected with
  | none => rw [List.find?_eq_none.2 fun _ _ => by simp]
  | some opt =>
    cases hf : options.find? (fun o => some o.id = (some opt).map (·.id)) with
    | none => simpa using List.find?_eq_none.1 hf opt (h opt rfl)
    | some o => simpa using List.find?_some hf

/-- After a submodule is chosen, the `<select>` shows it under a root with a
    trailing separator, and its placeholder under any other, as no
    repo-relative id starts with a separator. -/
theorem submoduleSelectValue_joinPaths (root : List Char) {options : List SubmoduleOption}
    {value : SubmoduleOption} (hv : value ∈ options)
    (hids : ∀ opt ∈ options, opt.id.head? ≠ some '/') :
    submoduleSelectValue options (selectedSubmodule options root (joinPaths root value.id)) =
      if endsWith root ['/'] then value.id else [] := by
  rw [selectedSubmodule, submoduleSelectValue_eq fun _ h => List.mem_of_find?_eq_some h,
    relativePath_joinPaths]
  by_cases hr : endsWith root ['/'] = true
  · simp only [hr, if_true]
    cases hf : options.find? (fun opt => opt.id = value.id) with
    | none => simpa using List.find?_eq_none.1 hf value hv
    | some opt => simpa using List.find?_some hf
  · have hnone : options.find? (fun opt => opt.id = '/' :: value.id) = none :=
      List.find?_eq_none.2 fun opt hopt h => hids opt hopt (by simp_all)
    simp [hr, hnone]

theorem submoduleSelectValue_joinPaths_home :
    (⟨"user".toList, true⟩ : SubmoduleOption) ∈ [⟨"user".toList, true⟩] ∧
      (∀ opt ∈ ([⟨"user".toList, true⟩] : List SubmoduleOption), opt.id.head? ≠ some '/') ∧
      submoduleSelectValue [⟨"user".toList, true⟩]
          (selectedSubmodule [⟨"user".toList, true⟩] "/home".toList
            (joinPaths "/home".toList "user".toList)) =
        if endsWith "/home".toList ['/'] then "user".toList else [] :=
  ⟨List.mem_singleton_self _, by decide,
    submoduleSelectValue_joinPaths "/home".toList (List.mem_singleton_self _) (by decide)⟩

end Isl

