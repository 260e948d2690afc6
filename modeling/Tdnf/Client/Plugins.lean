import Tdnf.Client.RepoList
import Tdnf.Library.Overrides
import Tdnf.Library.Procedure

/-!
# Plugins

Plugins are found by the files of a configuration directory, switched on and off by
options, loaded from shared libraries and told of events. A plugin that cannot be
loaded is left out, and an event stops at the first plugin that fails.
-/

namespace Tdnf.Client.Plugins

open PathText Common Overrides Procedure

/-- `ERROR_TDNF_PLUGINS_DISABLED` -/
abbrev pluginsDisabled : TdnfError := .bare 1517

/-- `ERROR_TDNF_NO_PLUGIN_CONF_DIR` -/
abbrev noPluginConfDir : TdnfError := .bare 1518

/-- `ERROR_TDNF_PLUGIN_LOAD_ERROR` -/
abbrev pluginLoadError : TdnfError := .bare 1519

/-- `ERROR_TDNF_EVENT_CTXT_ITEM_NOT_FOUND` -/
abbrev eventCtxtItemNotFound : TdnfError := .bare 1551

/-- `ERROR_TDNF_EVENT_CTXT_ITEM_INVALID_TYPE` -/
abbrev eventCtxtItemInvalidType : TdnfError := .bare 1552

/-! ## Events -/

/-- `TDNF_PLUGIN_EVENT_TYPE_INIT` -/
def pluginEventTypeInit : ℕ := 0x1

/-- `TDNF_PLUGIN_EVENT_TYPE_REPO` -/
def pluginEventTypeRepo : ℕ := 0x2

/-- `TDNF_PLUGIN_EVENT_TYPE_REPO_MD` -/
def pluginEventTypeRepoMD : ℕ := 0x4

/-- `TDNF_PLUGIN_EVENT_STATE_DOWNLOAD` -/
def pluginEventStateDownload : ℕ := 1

/-- `TDNF_PLUGIN_EVENT_STATE_CREATE` -/
def pluginEventStateCreate : ℕ := 2

/-- `TDNF_PLUGIN_EVENT_STATE_READCONFIG` -/
def pluginEventStateReadConfig : ℕ := 3

/-- `TDNF_PLUGIN_EVENT_PHASE_START` -/
def pluginEventPhaseStart : ℕ := 1

/-- `TDNF_PLUGIN_EVENT_PHASE_END` -/
def pluginEventPhaseEnd : ℕ := 2

/-- `PLUGIN_EVENT_TYPE` -/
def pluginEventType (event : ℕ) : ℕ := event >>> 8

/-- `PLUGIN_EVENT_PHASE` -/
def pluginEventPhase (event : ℕ) : ℕ := event &&& 0x3

/-- `PLUGIN_EVENT_STATE` -/
def pluginEventState (event : ℕ) : ℕ := event >>> 2 &&& 0x3F

/-- `MAKE_PLUGIN_EVENT`, for a type of at most 24 bits -/
def makePluginEvent (type state phase : ℕ) : ℕ := type <<< 8 ||| state <<< 2 ||| phase

/-- A value in the data of an event. -/
inductive EventItem (P : Type) where
  | str (pcszStr : Text)
  | ptr (pPtr : P)

/-- `TDNF_EVENT_CONTEXT`, with the items by their names -/
structure EventContext (P : Type) where
  nEvent : ℕ
  pData : List (String × EventItem P)

namespace EventContext

variable {P : Type} (pContext : EventContext P) (pcszName : String)

/-- `TDNFAddEventDataString` -/
def addEventDataString (pcszStr : Text) : Except TdnfError (EventContext P) :=
  if pcszName = "" ∨ pcszStr = [] then .error .invalidParameter
  else .ok { pContext with pData := (pcszName, .str pcszStr) :: pContext.pData }

/-- `TDNFAddEventDataPtr` -/
def addEventDataPtr (pPtr : P) : Except TdnfError (EventContext P) :=
  if pcszName = "" then .error .invalidParameter
  else .ok { pContext with pData := (pcszName, .ptr pPtr) :: pContext.pData }

/-- `TDNFEventContextGetItem` -/
def getItem : Except TdnfError (EventItem P) :=
  if pContext.pData = [] ∨ pcszName = "" then .error .invalidParameter
  else
    match pContext.pData.lookup pcszName with
    | some item => .ok item
    | none => .error eventCtxtItemNotFound

/-- `TDNFEventContextGetItemPtr` -/
def getItemPtr : Except TdnfError P := do
  match ← pContext.getItem pcszName with
  | .ptr pPtr => return pPtr
  | .str _ => throw eventCtxtItemInvalidType

/-- `TDNFEventContextGetItemString` -/
def getItemString : Except TdnfError Text := do
  match ← pContext.getItem pcszName with
  | .str pcszStr => return pcszStr
  | .ptr _ => throw eventCtxtItemInvalidType

end EventContext

/-- What the data of an event points to. -/
inductive Pointer where
  | tdnf
  | section (cn_section : Section)

/-! ## Plugins -/

/-- `TDNF_PLUGIN_INTERFACE` as a library fills it in: functions on a handle and on the world
around. -/
structure InterfaceTable (H W : Type) where
  pFnInitialize : Option (Except TdnfError H)
  pFnEventsNeeded : Option (H → Except TdnfError ℕ)
  pFnEvent : Option (EventContext Pointer → Proc TdnfError (H × W) Unit)
  /-- whether `pFnGetErrorString` is set -/
  hasGetErrorString : Bool
  /-- whether `pFnCloseHandle` is set -/
  hasCloseHandle : Bool

/-- An interface of which nothing is missing. -/
structure Interface (H W : Type) where
  pFnInitialize : Except TdnfError H
  pFnEventsNeeded : H → Except TdnfError ℕ
  pFnEvent : EventContext Pointer → Proc TdnfError (H × W) Unit

/-- A shared library, with `TDNFPluginLoadInterface` if it has one. -/
structure SharedLibrary (H W : Type) where
  pFnLoadInterface : Option (Except TdnfError (InterfaceTable H W))

/-- `TDNF_PLUGIN`, with what there is of it while it is enabled. -/
structure Plugin (S : Type) where
  pszName : Text
  enabled : Option S

/-- `nEnabled` -/
def Plugin.nEnabled {S : Type} (plugin : Plugin S) : Bool := plugin.enabled.isSome

/-- A plugin once it is initialized. -/
structure Instance (H W : Type) where
  stInterface : Interface H W
  pHandle : H
  registerdEvts : ℕ

/-- What the loading of plugins reads and calls. -/
structure PluginHost (H W : Type) where
  nPluginsEnabled : Bool
  pszPluginPath : Text
  pszPluginConfPath : Text
  /-- the names that `readdir` yields for the configuration directory, or nothing if it cannot
  be opened -/
  readPluginConfDir : Option (List Text)
  /-- the sections of a `.conf` file -/
  parseFile : Text → Except TdnfError (List Section)
  fnmatch : Text → Text → Bool
  dlopen : Text → Option (SharedLibrary H W)

section Loading

variable {H W : Type} (host : PluginHost H W)

/-- One key of the section `main` in `_TDNFLoadPluginConfig` -/
def readPluginKey (nEnabled : Bool) (entry : String × Option Text) : Bool :=
  match entry.1.toList, entry.2 with
  | '.' :: _, _ => nEnabled
  | _, none => nEnabled
  | _, some value => if entry.1 = "enabled" then isTrue value else nEnabled

/-- One section in `_TDNFLoadPluginConfig` -/
def readPluginSection (nEnabled : Bool) (sec : Section) : Bool :=
  if sec.name.head? = some '.' then nEnabled
  else if sec.name = "main".toList then sec.entries.foldl readPluginKey nEnabled
  else nEnabled

/-- `_TDNFLoadPluginConfig`, with `nEnabled` -/
def loadPluginConfig (pszConfigFile : Text) : Except TdnfError Bool := do
  if pszConfigFile = [] then throw .invalidParameter
  let sections ← host.parseFile pszConfigFile
  return sections.foldl readPluginSection false

/-- Whether a directory entry is a `.conf` file. -/
def isConfFile (name : Text) : Bool :=
  ".conf".toList.length < name.length && ".conf".toList.isSuffixOf name

/-- The name of the plugin that a `.conf` file is for. -/
def pluginName (name : Text) : Text := name.take (name.length - ".conf".toList.length)

/-- A plugin that is enabled or not. -/
def Plugin.set (pszName : Text) (nEnabled : Bool) : Plugin Unit :=
  ⟨pszName, if nEnabled then some () else none⟩

/-- One round of the loop in `_TDNFLoadPluginConfigs` -/
def addPluginConfig (plugins : List (Plugin Unit)) (name : Text) :
    Except TdnfError (List (Plugin Unit)) :=
  if isConfFile name then do
    let nEnabled ← loadPluginConfig host (joinPath [host.pszPluginConfPath, name])
    return plugins ++ [.set (pluginName name) nEnabled]
  else return plugins

/-- `_TDNFLoadPluginConfigs` -/
def loadPluginConfigs : Except TdnfError (List (Plugin Unit)) :=
  match host.readPluginConfDir with
  | none => .error noPluginConfDir
  | some names => names.foldlM (addPluginConfig host) []

/-- The loop of `_TDNFAlterPluginState`; a name that is no glob stops at its plugin. -/
def alterPlugins (nEnable : Bool) (pszName : Text) : List (Plugin Unit) → List (Plugin Unit)
  | [] => []
  | plugin :: plugins =>
    if isGlob pszName then
      (if host.fnmatch pszName plugin.pszName then .set plugin.pszName nEnable else plugin) ::
        alterPlugins nEnable pszName plugins
    else if plugin.pszName = pszName then .set plugin.pszName nEnable :: plugins
    else plugin :: alterPlugins nEnable pszName plugins

/-- `_TDNFAlterPluginState` -/
def alterPluginState (plugins : List (Plugin Unit)) (nEnable : Bool) (pszName : Text) :
    Except TdnfError (List (Plugin Unit)) :=
  if plugins = [] ∨ pszName = [] then .error .invalidParameter
  else .ok (alterPlugins host nEnable pszName plugins)

/-- One round of the loop in `_TDNFApplyPluginOverrides` -/
def applyPluginOverride (plugins : List (Plugin Unit)) (o : CmdOpt) :
    Except TdnfError (List (Plugin Unit)) :=
  if o.pszOptName = "enableplugin" then alterPluginState host plugins true o.pszOptValue
  else if o.pszOptName = "disableplugin" then alterPluginState host plugins false o.pszOptValue
  else return plugins

/-- `_TDNFApplyPluginOverrides` -/
def applyPluginOverrides (opts : List CmdOpt) (plugins : List (Plugin Unit)) :
    Except TdnfError (List (Plugin Unit)) :=
  if plugins = [] then .error .invalidParameter
  else opts.foldlM (applyPluginOverride host) plugins

/-- The final validation of `_TDNFLoadPluginLib` -/
def InterfaceTable.validate : InterfaceTable H W → Except TdnfError (Interface H W)
  | ⟨some pFnInitialize, some pFnEventsNeeded, some pFnEvent, true, true⟩ =>
    .ok ⟨pFnInitialize, pFnEventsNeeded, pFnEvent⟩
  | _ => .error pluginLoadError

/-- The steps of `_TDNFLoadPluginLib` that can fail -/
def loadInterface (pszLib : Text) : Except TdnfError (Interface H W) :=
  if pszLib = [] then .error .invalidParameter
  else
    match host.dlopen pszLib with
    | none => .error pluginLoadError
    | some pModule =>
      match pModule.pFnLoadInterface with
      | none => .error pluginLoadError
      | some loaded => do (← loaded).validate

/-- `_TDNFLoadPluginLib`: it is okay to proceed without any or all plugins. -/
def loadPluginLib (pszLib : Text) (plugin : Plugin Unit) : Plugin (Interface H W) :=
  ⟨plugin.pszName, (loadInterface host pszLib).toOption⟩

/-- Where the library of a plugin lies. -/
def pluginLib (pszName : Text) : Text :=
  host.pszPluginPath ++ "/lib".toList ++ pszName ++ ".so".toList

/-- `_TDNFLoadPluginLibs` -/
def loadPluginLibs (plugins : List (Plugin Unit)) :
    Except TdnfError (List (Plugin (Interface H W))) :=
  if host.pszPluginPath = [] ∨ plugins = [] then .error .invalidParameter
  else .ok (plugins.map fun plugin =>
    if plugin.nEnabled then loadPluginLib host (pluginLib host plugin.pszName) plugin
    else ⟨plugin.pszName, none⟩)

/-- `_TDNFLoadPlugins` -/
def loadPluginList (opts : List CmdOpt) : Except TdnfError (List (Plugin (Interface H W))) := do
  if !host.nPluginsEnabled then throw pluginsDisabled
  if opts.any fun o => o.pszOptName == "noplugins" then throw pluginsDisabled
  let plugins ← loadPluginConfigs host
  let plugins ← applyPluginOverrides host opts plugins
  loadPluginLibs host plugins

/-- Tell a plugin with a handle of an event, with the handle after it. -/
def Interface.call (stInterface : Interface H W) (pContext : EventContext Pointer) (pHandle : H) :
    Proc TdnfError W H := fun w =>
  match (stInterface.pFnEvent pContext).run (pHandle, w) with
  | .ok _ s => .ok s.1 s.2
  | .error e s => .error e s.2

/-- The event of `_TDNFInitPlugins` -/
def initContext : Except TdnfError (EventContext Pointer) :=
  EventContext.addEventDataPtr
    ⟨makePluginEvent pluginEventTypeInit pluginEventStateCreate pluginEventPhaseStart, []⟩
    "tdnf.handle" .tdnf

/-- A plugin that is enabled, in `_TDNFInitPlugins` -/
def initInstance (pContext : EventContext Pointer) (stInterface : Interface H W) :
    Proc TdnfError W (Instance H W) := do
  let pHandle ← fromExcept stInterface.pFnInitialize
  let pHandle ← stInterface.call pContext pHandle
  let registerdEvts ← fromExcept (stInterface.pFnEventsNeeded pHandle)
  return ⟨stInterface, pHandle, registerdEvts⟩

/-- One round of the loop in `_TDNFInitPlugins` -/
def initPlugin (pContext : EventContext Pointer) (plugin : Plugin (Interface H W)) :
    Proc TdnfError W (Plugin (Instance H W)) :=
  match plugin.enabled with
  | none => return ⟨plugin.pszName, none⟩
  | some stInterface => do
    let instance' ← initInstance pContext stInterface
    return ⟨plugin.pszName, some instance'⟩

/-- `_TDNFInitPlugins` -/
def initPlugins (plugins : List (Plugin (Interface H W))) :
    Proc TdnfError W (List (Plugin (Instance H W))) := do
  if plugins.isEmpty then throw .invalidParameter
  let pContext ← fromExcept initContext
  plugins.mapM (initPlugin pContext)

/-- `TDNFLoadPlugins`, with `pTdnf->pPlugins` -/
def loadPlugins (opts : List CmdOpt) : Proc TdnfError W (List (Plugin (Instance H W))) := do
  match ← attempt (do initPlugins (← fromExcept (loadPluginList host opts))) with
  | .ok plugins => return plugins
  | .error e => if e = pluginsDisabled ∨ e = noPluginConfDir then return [] else throw e

end Loading

/-! ## Raising events -/

section Raising

variable {H W : Type}

/-- Whether a plugin is called for an event. -/
def Plugin.listens (plugin : Plugin (Instance H W)) (nEvent : ℕ) : Bool :=
  match plugin.enabled with
  | none => false
  | some inst => inst.registerdEvts &&& pluginEventType nEvent ≠ 0

/-- The plugin with another handle. -/
def Plugin.withHandle (plugin : Plugin (Instance H W)) (pHandle : H) : Plugin (Instance H W) :=
  { plugin with enabled := plugin.enabled.map fun inst => { inst with pHandle } }

/-- One round of the loop in `TDNFPluginRaiseEvent` -/
def notify (pContext : EventContext Pointer) (plugin : Plugin (Instance H W)) (w : W) :
    EStateM.Result TdnfError (Plugin (Instance H W) × W) Unit :=
  match plugin.enabled with
  | none => .ok () (plugin, w)
  | some inst =>
    if inst.registerdEvts &&& pluginEventType pContext.nEvent = 0 then .ok () (plugin, w)
    else
      match (inst.stInterface.pFnEvent pContext).run (inst.pHandle, w) with
      | .ok _ s => .ok () (plugin.withHandle s.1, s.2)
      | .error e s => .error e (plugin.withHandle s.1, s.2)

/-- The loop of `TDNFPluginRaiseEvent` -/
def raiseLoop (pContext : EventContext Pointer) (w : W) : List (Plugin (Instance H W)) →
    EStateM.Result TdnfError (List (Plugin (Instance H W)) × W) Unit
  | [] => .ok () ([], w)
  | plugin :: plugins =>
    match notify pContext plugin w with
    | .error e s => .error e (s.1 :: plugins, s.2)
    | .ok _ s =>
      match raiseLoop pContext s.2 plugins with
      | .ok _ t => .ok () (s.1 :: t.1, t.2)
      | .error e t => .error e (s.1 :: t.1, t.2)

/-- `TDNFPluginRaiseEvent` -/
def raiseEvent (pContext : EventContext Pointer) :
    Proc TdnfError (List (Plugin (Instance H W)) × W) Unit :=
  fun s => raiseLoop pContext s.2 s.1

end Raising

end Tdnf.Client.Plugins
