import Rigor.Cli.Check.Pipeline
import Rigor.Cli.Config.Values

/-!
# Plugins

The `plugins:` entries of the configuration.  `plugin_resolution` loads them, with a row for each entry that
does not load and the rows of those that do; `configured_plugin_ids` names them without loading.
-/

namespace Rigor.Cli.Config

open Rigor.Cli.Check Rigor.Rules Rigor.Rust

variable {N : Type}

namespace Value

def untag : Value N → Value N
  | .tagged _ value => value.untag
  | other => other

/-- `nil` or `false`. -/
def falsy (v : Value N) : Bool :=
  match v.untag with
  | .null => true
  | .bool false => true
  | _ => false

/-- A string or a mapping. -/
def isEntry (v : Value N) : Bool :=
  match v.untag with
  | .string _ => true
  | .mapping _ => true
  | _ => false

/-- `Value::get` with a string. -/
def get (key : Text) (v : Value N) : Option (Value N) :=
  match v.untag with
  | .mapping entries =>
      (entries.find? fun entry =>
        match entry.1 with
        | .string s => s = key
        | _ => false).map Prod.snd
  | _ => none

/-- `is_i64() || is_u64()` of a number. -/
def rubyTypeName (isInteger : N → Bool) (v : Value N) : Text :=
  match v.untag with
  | .null => "nil".toList
  | .bool true => "true".toList
  | .bool false => "false".toList
  | .number n => if isInteger n then "Integer".toList else "Float".toList
  | .string _ => "String".toList
  | .sequence _ => "Array".toList
  | .mapping _ => "Hash".toList
  | .tagged _ _ => []

def rubyClassName (isInteger : N → Bool) (v : Value N) : Text :=
  let name := v.rubyTypeName isInteger
  if name = "nil".toList then "NilClass".toList
  else if name = "true".toList then "TrueClass".toList
  else if name = "false".toList then "FalseClass".toList
  else name

end Value

/-! ## Entries -/

/-- `BUNDLED_PLUGIN_GEMS`. -/
def bundledPluginGems : List Text :=
  ["rigor-ac-library-rb", "rigor-actioncable", "rigor-actionmailer", "rigor-actionpack",
    "rigor-active-model-serializers", "rigor-activejob", "rigor-activerecord", "rigor-activestorage",
    "rigor-activesupport-core-ext", "rigor-alba", "rigor-devise", "rigor-dry-monads", "rigor-dry-schema",
    "rigor-dry-struct", "rigor-dry-types", "rigor-dry-validation", "rigor-ethon", "rigor-factorybot",
    "rigor-ffi", "rigor-ffi-rzmq", "rigor-grape", "rigor-graphql", "rigor-hanami", "rigor-mangrove",
    "rigor-minitest", "rigor-pundit", "rigor-rails", "rigor-rails-i18n", "rigor-rails-routes",
    "rigor-railties", "rigor-rbnacl", "rigor-rbs-inline", "rigor-rspec", "rigor-rspec-rails",
    "rigor-sassc", "rigor-shoulda-matchers", "rigor-sidekiq", "rigor-sinatra", "rigor-sorbet",
    "rigor-statesman", "rigor-typelizer", "rigor-typescript-utility-types"].map String.toList

structure PluginEntry (N : Type) where
  gem : Option Text
  id : Value N
  config : Value N
  enabled : Bool
  index : Nat
  raw : Value N

/-- The value of a key, by the `to_s` of the keys. -/
def entryGet (texts : Texts N) (entries : Mapping N) (key : Text) : Option (Value N) :=
  (entries.find? fun entry => rubyToS texts entry.1 = key).map Prod.snd

/-- The entry of a mapping names its gem by `gem:`, or by `id:` where that is `nil` or `false`. -/
def mappingGem (texts : Texts N) (entries : Mapping N) : Option Text :=
  match (((entryGet texts entries "gem".toList).filter fun v => !v.falsy).or
      (entryGet texts entries "id".toList)).map Value.untag with
  | some (.string s) => if s = [] then none else some s
  | _ => none

/-- One of the `plugin_entries`. -/
def pluginEntry (texts : Texts N) (index : Nat) (raw : Value N) : PluginEntry N :=
  match raw.untag with
  | .string gem => ⟨some gem, .null, .null, true, index, raw⟩
  | .mapping entries =>
      { gem := mappingGem texts entries
        id := (entryGet texts entries "id".toList).getD .null
        config := (entryGet texts entries "config".toList).getD .null
        enabled :=
          match (entryGet texts entries "enabled".toList).map Value.untag with
          | some (.bool false) => false
          | _ => true
        index := index
        raw := raw }
  | other => ⟨none, .null, .null, true, index, other⟩

def pluginEntries (texts : Texts N) (plugins : List (Value N)) : List (PluginEntry N) :=
  plugins.zipIdx.map fun plugin => pluginEntry texts plugin.2 plugin.1

/-- The manifest id of one entry, if it is known without loading. -/
def configuredPluginId (texts : Texts N) (raw : Value N) : Option Text :=
  let pair : Option (Value N) × Text :=
    match raw.untag with
    | .mapping entries =>
        (((entryGet texts entries "id".toList).map Value.untag).filter fun v =>
            match v with
            | .null => false
            | .bool false => false
            | _ => true,
          ((entryGet texts entries "gem".toList).map (rubyToS texts)).getD [])
    | other => (none, rubyToS texts other)
  match pair.1 with
  | some id => some (rubyToS texts id)
  | none =>
      if pair.2 ∈ bundledPluginGems then some ((Text.stripPrefix "rigor-".toList pair.2).getD pair.2)
      else none

/-- The loop of `configured_plugin_ids`. -/
def pluginIdsFrom (texts : Texts N) : List (Value N) → List Text → Option (List Text)
  | [], ids => some ids
  | raw :: plugins, ids =>
      match configuredPluginId texts raw with
      | none => none
      | some id => pluginIdsFrom texts plugins (if id ∈ ids then ids else ids ++ [id])

def configuredPluginIds (texts : Texts N) (plugins : List (Value N)) : Option (List Text) :=
  pluginIdsFrom texts plugins []

/-! ## Loading -/

/-- Which plugins load, and the rows and the lines of the loader. -/
structure PluginResolution where
  activated : List Text
  loadErrors : List PluginRow
  emitted : List PluginRow
  stderr : List Text

/-- `PluginLoadRow::loader`. -/
def loaderRow (message : Text) : PluginRow :=
  ⟨"plugin_loader.load-error".toList, message, .error, "plugin_loader".toList⟩

/-- A row of the plugin itself, `plugin.<id>.load-error`. -/
def pluginLoadError (id message : Text) (severity : Severity) : PluginRow :=
  ⟨"plugin.".toList ++ id ++ ".load-error".toList, message, severity, "plugin.".toList ++ id⟩

/-- The string of a key of `config:`, or the default. -/
def configString (config : Value N) (key default : Text) : Text :=
  match (config.get key).map Value.untag with
  | some (.string s) => s
  | _ => default

/-- `activerecord_runtime`; `rootIsFile` is `is_file` below the project root. -/
def activerecordRuntime (rootIsFile : Text → Bool) (config : Value N) (res : PluginResolution) :
    PluginResolution :=
  let schema := configString config "schema_file".toList "db/schema.rb".toList
  let structureFile := configString config "structure_sql_file".toList "db/structure.sql".toList
  if rootIsFile schema || rootIsFile structureFile then res
  else
    { res with
      emitted := res.emitted ++ [pluginLoadError "activerecord".toList
        ("rigor-activerecord: schema file `".toList ++ schema ++ "` (or `".toList ++ structureFile ++
          "`) not found; typing models from source only — column checks (`where(col:)`, ".toList ++
          "column readers) are skipped".toList) .info] }

def railsRoutesRuntime (rootIsFile : Text → Bool) (config : Value N) (res : PluginResolution) :
    PluginResolution :=
  let routes := configString config "routes_file".toList "config/routes.rb".toList
  if rootIsFile routes then res
  else
    { res with
      emitted := res.emitted ++ [pluginLoadError "rails-routes".toList
        ("rigor-rails-routes: routes file `".toList ++ routes ++ "` not found; route checks skipped".toList)
        .warning] }

def rbsInlineRuntime (res : PluginResolution) : PluginResolution :=
  { res with
    stderr := res.stderr ++
      [("rigor-rbs-inline: failed to load `rbs/inline` (cannot load such file -- " ++
        "rbs/inline). The plugin will load but contribute no synthesised RBS. " ++
        "Install the `rbs-inline` gem to enable inline-RBS comment ingestion.").toList] }

/-- What the gem of a bundled plugin does once it is loaded. -/
inductive Runtime where
  | none
  | activerecord
  | railsRoutes
  | rbsInline

def Runtime.run (rootIsFile : Text → Bool) (config : Value N) : Runtime → PluginResolution → PluginResolution
  | .none, res => res
  | .activerecord, res => activerecordRuntime rootIsFile config res
  | .railsRoutes, res => railsRoutesRuntime rootIsFile config res
  | .rbsInline, res => rbsInlineRuntime res

structure BundledOutcome where
  id : Text
  configSchema : Option (List (Text × Text))
  runtime : Runtime
  portBundled : Bool

/-- `SILENT_BUNDLED_IDS`. -/
def silentBundledIds : List Text :=
  ["actioncable", "actionmailer", "actionpack", "active-model-serializers", "activejob", "devise",
    "dry-monads", "dry-schema", "dry-struct", "dry-types", "dry-validation", "factorybot", "ffi", "grape",
    "graphql", "hanami", "mangrove", "minitest", "pundit", "rails-i18n", "railties", "rspec",
    "rspec-rails", "shoulda-matchers", "sidekiq", "sinatra", "sorbet", "statesman",
    "typescript-utility-types"].map String.toList

def schemaOf (fields : List (String × String)) : Option (List (Text × Text)) :=
  some (fields.map fun field => (field.1.toList, field.2.toList))

/-- `resolve_plugin_gem`; `none` is `LoadFailure`. -/
def resolvePluginGem (gem : Text) : Option BundledOutcome :=
  if gem = "rigor-activesupport-core-ext".toList then
    some ⟨"activesupport-core-ext".toList, schemaOf [], .none, true⟩
  else if gem = "rigor-activerecord".toList then
    some ⟨"activerecord".toList,
      schemaOf [("schema_file", "string"), ("structure_sql_file", "string"),
        ("model_search_paths", "array"), ("model_base_classes", "array")], .activerecord, false⟩
  else if gem = "rigor-rails-routes".toList then
    some ⟨"rails-routes".toList,
      schemaOf [("routes_file", "string"), ("helper_paths", "array"), ("grape_api_paths", "array")],
      .railsRoutes, false⟩
  else if gem = "rigor-rbs-inline".toList then
    some ⟨"rbs-inline".toList, schemaOf [("require_magic_comment", "boolean")], .rbsInline, false⟩
  else
    ((Text.stripPrefix "rigor-".toList gem).bind fun id => silentBundledIds.find? (· = id)).map fun id =>
      ⟨id, none, .none, false⟩

def pluginFailedFeature (gem : Text) : Text :=
  if gem ∈ ["rigor-ethon", "rigor-ffi-rzmq", "rigor-rbnacl", "rigor-sassc"].map String.toList then
    "rigor-ffi".toList
  else if gem = "rigor-rails".toList then "rigor-railties".toList
  else if gem = "rigor-activestorage".toList then "rigor/plugin/activestorage".toList
  else gem

def configValueMatches (isInteger : N → Bool) (v : Value N) (kind : Text) : Bool :=
  if kind = "any".toList then true
  else
    match v.untag with
    | .string _ => kind = "string".toList
    | .bool _ => kind = "boolean".toList
    | .number n => kind = "integer".toList && isInteger n
    | .sequence _ => kind = "array".toList
    | .mapping _ => kind = "hash".toList
    | _ => false

/-- The error of one key of `config:`, or an empty text. -/
def configKeyError (texts : Texts N) (isInteger : N → Bool) (id : Text) (schema : List (Text × Text))
    (entry : Value N × Value N) : Text :=
  let key := rubyToS texts entry.1
  match schema.find? fun field => field.1 = key with
  | none => "unknown config key ".toList ++ texts.debug key ++ " for plugin ".toList ++ texts.debug id
  | some field =>
      if configValueMatches isInteger entry.2 field.2 then []
      else "config key ".toList ++ texts.debug key ++ " expected ".toList ++ field.2 ++ ", got ".toList ++
        entry.2.untag.rubyClassName isInteger

def pluginConfigError (texts : Texts N) (isInteger : N → Bool) (id : Text) (config : Value N)
    (schema : Option (List (Text × Text))) : Option Text :=
  let heading := "plugin ".toList ++ texts.debug id ++ " config invalid: ".toList
  match config.untag with
  | .null => none
  | .bool false => none
  | .mapping entries =>
      schema.bind fun schema =>
        let errors := (entries.map (configKeyError texts isInteger id schema)).filter (· ≠ [])
        if errors = [] then none else some (heading ++ ("; ".toList).intercalate errors)
  | other =>
      some (heading ++ "plugin config must be a Hash, got ".toList ++ other.rubyClassName isInteger)

/-- The state of the loop: the result, and the gem that first gave each id. -/
structure Loading where
  res : PluginResolution
  seen : List (Text × Text)

def Loading.fail (loading : Loading) (message : Text) : Loading :=
  { loading with res := { loading.res with loadErrors := loading.res.loadErrors ++ [loaderRow message] } }

def Loading.activate (loading : Loading) (rootIsFile : Text → Bool) (config : Value N) (b : BundledOutcome) :
    Loading :=
  let res := b.runtime.run rootIsFile config loading.res
  { loading with res := if b.portBundled then { res with activated := res.activated ++ [b.id] } else res }

/-- An `id:` that is falsy, or the id of the plugin. -/
def idOk (id : Text) (entry : Value N) : Bool :=
  match entry.untag with
  | .null => true
  | .bool false => true
  | .string s => s = id
  | _ => false

def Loading.load (texts : Texts N) (isInteger : N → Bool) (rootIsFile : Text → Bool) (loading : Loading)
    (entry : PluginEntry N) : Loading :=
  if !entry.raw.isEntry then
    loading.fail ("plugin entry #".toList ++ Nat.toDigits 10 entry.index ++ " must be a String or Hash, got ".toList ++
      entry.raw.untag.rubyTypeName isInteger)
  else
    match entry.gem with
    | none =>
        loading.fail ("plugin entry #".toList ++ Nat.toDigits 10 entry.index ++
          " must declare a non-empty `gem:` (or `id:`), got ".toList ++ rubyInspect texts entry.raw)
    | some gem =>
        if !entry.enabled then loading
        else
          match resolvePluginGem gem with
          | none =>
              loading.fail ("could not load plugin gem ".toList ++ texts.debug gem ++
                ": cannot load such file -- ".toList ++ pluginFailedFeature gem)
          | some b =>
              if !idOk b.id entry.id then
                loading.fail ("plugin id ".toList ++ rubyInspect texts entry.id ++ " (gem ".toList ++
                  texts.debug gem ++ ") did not register itself with Rigor::Plugin.register".toList)
              else
                match loading.seen.lookup b.id with
                | some first =>
                    loading.fail ("plugin id ".toList ++ texts.debug b.id ++
                      " appeared twice in configuration (first via ".toList ++ texts.debug first ++
                      ", again via ".toList ++ texts.debug gem ++ [')'])
                | none =>
                    let loading := { loading with seen := (b.id, gem) :: loading.seen }
                    match pluginConfigError texts isInteger b.id entry.config b.configSchema with
                    | some message => loading.fail message
                    | none => loading.activate rootIsFile entry.config b

def pluginResolution (texts : Texts N) (isInteger : N → Bool) (rootIsFile : Text → Bool)
    (plugins : List (Value N)) : PluginResolution :=
  ((pluginEntries texts plugins).foldl (Loading.load texts isInteger rootIsFile)
    { res := ⟨[], [], [], []⟩, seen := [] }).res

/-! ## The ids of the rows -/

/-- The row is the load error of a plugin, with one of these ids where they are known. -/
def PluginRow.OfPlugin (ids : Option (List Text)) (row : PluginRow) : Prop :=
  ∃ id, (∀ known ∈ ids, id ∈ known) ∧ ∃ message severity, row = pluginLoadError id message severity

@[simp]
theorem rubyToS_untag (texts : Texts N) (v : Value N) : rubyToS texts v.untag = rubyToS texts v := by
  induction v using Value.untag.induct with
  | case1 tag value ih => rw [Value.untag, ih, rubyToS]
  | case2 v noTag => rw [Value.untag]; exact noTag

theorem mem_pluginIdsFrom {texts : Texts N} {plugins : List (Value N)} {start ids : List Text}
    (configured : pluginIdsFrom texts plugins start = some ids) :
    (∀ id ∈ start, id ∈ ids) ∧ ∀ raw ∈ plugins, ∃ id ∈ ids, configuredPluginId texts raw = some id := by
  induction plugins generalizing start with
  | nil =>
      rw [pluginIdsFrom, Option.some.injEq] at configured
      rw [configured]
      exact ⟨fun _ mem => mem, fun raw mem => absurd mem List.not_mem_nil⟩
  | cons raw plugins ih =>
      rw [pluginIdsFrom] at configured
      cases named : configuredPluginId texts raw with
      | none => simp [named] at configured
      | some id =>
          rw [named] at configured
          rcases ih configured with ⟨kept, each⟩
          have inside : id ∈ ids := by
            apply kept
            split
            · assumption
            · exact List.mem_append_right _ (List.mem_singleton.mpr rfl)
          constructor
          · intro other mem
            apply kept
            split
            · exact mem
            · exact List.mem_append_left _ mem
          · intro other mem
            rcases List.mem_cons.mp mem with rfl | later
            · exact ⟨id, inside, named⟩
            · exact each other later

theorem mem_configuredPluginIds {texts : Texts N} {plugins : List (Value N)} {ids : List Text}
    (configured : configuredPluginIds texts plugins = some ids) {raw : Value N} (mem : raw ∈ plugins) :
    ∃ id ∈ ids, configuredPluginId texts raw = some id :=
  (mem_pluginIdsFrom configured).2 raw mem

/-- Only two plugins have rows of their own. -/
theorem eq_of_runtime {gem : Text} {b : BundledOutcome} (resolved : resolvePluginGem gem = some b) :
    b.runtime = .none ∨ b.runtime = .rbsInline ∨
      (b.runtime = .activerecord ∧ gem = "rigor-activerecord".toList ∧ b.id = "activerecord".toList) ∨
      b.runtime = .railsRoutes ∧ gem = "rigor-rails-routes".toList ∧ b.id = "rails-routes".toList := by
  unfold resolvePluginGem at resolved
  split_ifs at resolved with core record routes inline
  · cases resolved
    exact Or.inl rfl
  · cases resolved
    exact Or.inr (Or.inr (Or.inl ⟨rfl, record, rfl⟩))
  · cases resolved
    exact Or.inr (Or.inr (Or.inr ⟨rfl, routes, rfl⟩))
  · cases resolved
    exact Or.inr (Or.inl rfl)
  · rw [Option.map_eq_some_iff] at resolved
    rcases resolved with ⟨id, -, rfl⟩
    exact Or.inl rfl

/-- A gem that a mapping names by its `gem:` key, unless it repeats its `id:`. -/
theorem mappingGem_eq_some {texts : Texts N} {entries : Mapping N} {gem : Text}
    (named : mappingGem texts entries = some gem) :
    ((entryGet texts entries "gem".toList).map (rubyToS texts)).getD [] = gem ∨
      (entryGet texts entries "id".toList).map Value.untag = some (.string gem) := by
  unfold mappingGem at named
  cases given : (entryGet texts entries "gem".toList).filter fun v => !v.falsy with
  | none =>
      right
      rw [given, Option.none_or] at named
      split at named
      · split_ifs at named with empty
        rw [Option.some.injEq] at named
        rw [← named]
        assumption
      · cases named
  | some v =>
      left
      rw [given, Option.some_or, Option.map_some] at named
      rcases Option.filter_eq_some_iff.mp given with ⟨found, -⟩
      rw [found, Option.map_some, Option.getD_some, ← rubyToS_untag]
      split at named
      · rename_i s same
        split_ifs at named with empty
        rw [Option.some.injEq] at named same
        rw [same, ← named, rubyToS]
      · cases named

theorem idOk_iff {id : Text} {entry : Value N} :
    idOk id entry = true ↔ entry.untag = .null ∨ entry.untag = .bool false ∨ entry.untag = .string id := by
  unfold idOk
  split
  · simp_all
  · simp_all
  · simp_all
  · simp_all

/-- The id under which an entry loads is the one that the configuration gives it. -/
theorem configuredPluginId_of_idOk {texts : Texts N} {index : Nat} {raw : Value N} {gem id : Text}
    (named : (pluginEntry texts index raw).gem = some gem) (bundled : gem ∈ bundledPluginGems)
    (short : Text.stripPrefix "rigor-".toList gem = some id)
    (ok : idOk id (pluginEntry texts index raw).id = true) : configuredPluginId texts raw = some id := by
  unfold pluginEntry at named ok
  unfold configuredPluginId
  cases kind : raw.untag with
  | string s =>
      simp only [kind, Option.some.injEq] at named
      simp only [named, rubyToS, bundled, if_true, short, Option.getD_some]
  | mapping entries =>
      simp only [kind] at named ok ⊢
      have keys := mappingGem_eq_some named
      generalize entryGet texts entries "id".toList = idValue at ok keys ⊢
      generalize ((entryGet texts entries "gem".toList).map (rubyToS texts)).getD [] = gemText at keys ⊢
      have fallback : idValue.map Value.untag ≠ some (.string gem) →
          (if gemText ∈ bundledPluginGems then some ((Text.stripPrefix "rigor-".toList gemText).getD gemText)
            else none) = some id := by
        intro other
        rcases keys with rfl | same
        · rw [if_pos bundled, short, Option.getD_some]
        · exact absurd same other
      cases idValue with
      | none => exact fallback (by simp)
      | some v =>
          rw [Option.getD_some, idOk_iff] at ok
          rcases ok with null | off | own
          · simp only [Option.map_some, null]
            exact fallback (by simp [null])
          · simp only [Option.map_some, off]
            exact fallback (by simp [off])
          · simp only [Option.map_some, own]
            rfl
  | null => simp [kind] at named
  | bool b => simp [kind] at named
  | number n => simp [kind] at named
  | sequence items => simp [kind] at named
  | tagged tag value => simp [kind] at named

section Rows

variable (texts : Texts N) (isInteger : N → Bool) (rootIsFile : Text → Bool)

/-- The rows of the second result are those of the first, or of a plugin with such an id. -/
def Emits (ids : Option (List Text)) (before after : PluginResolution) : Prop :=
  ∀ row ∈ after.emitted, row ∈ before.emitted ∨ PluginRow.OfPlugin ids row

theorem emits_run {ids : Option (List Text)} {b : BundledOutcome} {gem : Text} (config : Value N)
    (res : PluginResolution) (resolved : resolvePluginGem gem = some b)
    (own : gem ∈ bundledPluginGems → Text.stripPrefix "rigor-".toList gem = some b.id →
      ∀ known ∈ ids, b.id ∈ known) :
    Emits ids res (b.runtime.run rootIsFile config res) := by
  intro row mem
  rcases eq_of_runtime resolved with none | inline | ⟨record, rfl, id⟩ | ⟨routes, rfl, id⟩
  · rw [none] at mem
    exact Or.inl mem
  · rw [inline] at mem
    exact Or.inl mem
  · have inside := own (by decide) (by rw [id]; rfl)
    rw [record, Runtime.run, activerecordRuntime] at mem
    split at mem
    · exact Or.inl mem
    · rcases List.mem_append.mp mem with before | last
      · exact Or.inl before
      · exact Or.inr ⟨_, inside, _, _, by rw [List.mem_singleton.mp last, id]⟩
  · have inside := own (by decide) (by rw [id]; rfl)
    rw [routes, Runtime.run, railsRoutesRuntime] at mem
    split at mem
    · exact Or.inl mem
    · rcases List.mem_append.mp mem with before | last
      · exact Or.inl before
      · exact Or.inr ⟨_, inside, _, _, by rw [List.mem_singleton.mp last, id]⟩

theorem emits_load {ids : Option (List Text)} (loading : Loading) (index : Nat) (raw : Value N)
    (configured : ∀ known ∈ ids, ∃ id ∈ known, configuredPluginId texts raw = some id) :
    Emits ids loading.res (loading.load texts isInteger rootIsFile (pluginEntry texts index raw)).res := by
  have silent (message : Text) : Emits ids loading.res (loading.fail message).res := fun _ mem => Or.inl mem
  unfold Loading.load
  split
  · exact silent _
  · cases named : (pluginEntry texts index raw).gem with
    | none => exact silent _
    | some gem =>
        dsimp only
        split
        · exact fun _ mem => Or.inl mem
        · cases resolved : resolvePluginGem gem with
          | none => exact silent _
          | some b =>
              dsimp only
              split
              · exact silent _
              · rename_i ok
                rw [Bool.not_eq_true', Bool.not_eq_false] at ok
                cases loading.seen.lookup b.id with
                | some first => exact silent _
                | none =>
                    dsimp only
                    cases pluginConfigError texts isInteger b.id (pluginEntry texts index raw).config
                        b.configSchema with
                    | some message => exact fun _ mem => Or.inl mem
                    | none =>
                        have runs : Emits ids loading.res (b.runtime.run rootIsFile
                            (pluginEntry texts index raw).config loading.res) := by
                          apply emits_run rootIsFile _ _ resolved
                          intro bundled short known given
                          rcases configured known given with ⟨id, inside, given⟩
                          rw [configuredPluginId_of_idOk named bundled short ok, Option.some.injEq] at given
                          rwa [given]
                        dsimp only [Loading.activate]
                        split
                        · exact runs
                        · exact runs

/-- A row of a plugin's own names one of the configured ids. -/
theorem ofPlugin_of_mem_emitted {plugins : List (Value N)} {row : PluginRow}
    (mem : row ∈ (pluginResolution texts isInteger rootIsFile plugins).emitted) :
    PluginRow.OfPlugin (configuredPluginIds texts plugins) row := by
  have along (pairs : List (Value N × Nat)) (loading : Loading) (known : ∀ pair ∈ pairs, pair.1 ∈ plugins) :
      Emits (configuredPluginIds texts plugins) loading.res ((pairs.map fun plugin => pluginEntry texts plugin.2 plugin.1).foldl
        (Loading.load texts isInteger rootIsFile) loading).res := by
    induction pairs generalizing loading with
    | nil => exact fun _ mem => Or.inl mem
    | cons pair pairs ih =>
        intro row mem
        rw [List.map_cons, List.foldl_cons] at mem
        rcases ih _ (fun other inside => known other (List.mem_cons_of_mem _ inside)) row mem with first | own
        · apply emits_load texts isInteger rootIsFile loading pair.2 pair.1 _ row first
          intro ids configured
          exact mem_configuredPluginIds configured (known pair List.mem_cons_self)
        · exact Or.inr own
  have known : ∀ pair ∈ plugins.zipIdx, pair.1 ∈ plugins := by
    intro pair inside
    exact List.fst_mem_of_mem_zipIdx inside
  rcases along plugins.zipIdx { res := ⟨[], [], [], []⟩, seen := [] } known row mem with before | own
  · exact absurd before List.not_mem_nil
  · exact own

end Rows

end Rigor.Cli.Config
