import Mathlib.Data.List.Induction
import QwenHarness.Policy.Paths
import QwenHarness.Table.Keyed

/-!
# Which server definitions run

Servers are configured in layers, each from one source. Under one name the definition that comes
last runs, where the layers are taken in the order of their rank. A managed policy stands above the
layers, but it knows servers by name only: what it allows or denies is a name, and which definition
is meant by the name is for the layers to say.
-/

namespace QwenHarness.Mcp

open Policy

/-! ## Configuration -/

inductive McpConfigSource where
  | connector
  | plugin
  | user
  | approvedProject
  | local
deriving DecidableEq, Repr

/-- The weakest source first. -/
def McpConfigSource.rank : McpConfigSource → ℕ
  | .connector => 0
  | .plugin => 1
  | .user => 2
  | .approvedProject => 3
  | .local => 4

/-- The sources that are material of a project and need to be trusted. -/
def McpConfigSource.isProject : McpConfigSource → Bool
  | .approvedProject | .local => true
  | .connector | .plugin | .user => false

inductive TransportConfig where
  | stdio (command : String) (args : Option (List String)) (env : Option (List (String × String)))
    (autoRestart : Option Bool)
  | http (url : String) (sseUrl : Option String) (headers : Option (List (String × String)))
    (openServerStream : Option Bool)
  | sse (url : String)
  | websocket (url : String)
  | ideSse (sseUrl postUrl : String)
deriving DecidableEq, Repr

structure McpServerConfig where
  name : String
  transport : TransportConfig
  enabled : Option Bool
deriving DecidableEq, Repr

structure McpConfigLayer where
  source : McpConfigSource
  servers : List McpServerConfig
deriving DecidableEq, Repr

structure ManagedMcpPolicy where
  /-- Only the allowed servers may run. -/
  exclusive : Bool
  allowedServers : List String
  deniedServers : List String
deriving DecidableEq, Repr

def noManagedMcp : ManagedMcpPolicy := ⟨false, [], []⟩

structure ResolvedMcpServer where
  config : McpServerConfig
  source : McpConfigSource
  /-- The sources that lost, the weakest first. -/
  overriddenBy : List McpConfigSource
  trusted : Bool
  active : Bool
  inactiveReason : Option String
deriving DecidableEq, Repr

/-! ## Resolution -/

/-- What is known of a server while the layers are gone through. -/
structure Entry where
  name : String
  winner : McpConfigSource
  config : McpServerConfig
  losers : List McpConfigSource
deriving DecidableEq, Repr

/-- The layers in the order of their rank, one definition after the other. -/
def definitions (layers : List McpConfigLayer) : List (McpConfigSource × McpServerConfig) :=
  (layers.mergeSort fun a b ↦ decide (a.source.rank ≤ b.source.rank)).flatMap fun layer ↦
    layer.servers.map fun server ↦ (layer.source, server)

/-- Enter a definition: the first of its name is added, a later one takes the place of the one
before. -/
def enter (byName : Keyed Entry.name) (d : McpConfigSource × McpServerConfig) :
    Keyed Entry.name :=
  byName.upsert ⟨d.2.name, d.1, d.2, []⟩ fun e ↦
    { e with losers := e.losers ++ [e.winner], winner := d.1, config := d.2 }

def byName (layers : List McpConfigLayer) : Keyed Entry.name :=
  (definitions layers).foldl enter .empty

/-- Why a server does not run, if it does not. -/
def inactiveReason (managed : ManagedMcpPolicy) (trustedServers : List String) (e : Entry) :
    Option String :=
  if e.name ∈ managed.deniedServers then some "denied by managed policy"
  else if managed.exclusive ∧ e.name ∉ managed.allowedServers then
    some "managed policy is exclusive and does not list this server"
  else if e.winner.isProject ∧ e.name ∉ trustedServers then
    some "project server is not trusted (explicit trust required)"
  else if e.config.enabled = some false then some "disabled in config"
  else none

def resolveEntry (managed : ManagedMcpPolicy) (trustedServers : List String) (e : Entry) :
    ResolvedMcpServer where
  config := e.config
  source := e.winner
  overriddenBy := e.losers
  trusted := !e.winner.isProject || decide (e.name ∈ trustedServers)
  active := (inactiveReason managed trustedServers e).isNone
  inactiveReason := inactiveReason managed trustedServers e

/-- Every configured server with the definition that won, sorted by name. -/
def resolveMcpServers (layers : List McpConfigLayer) (managed : ManagedMcpPolicy)
    (trustedServers : List String) : List ResolvedMcpServer :=
  ((byName layers).rows.map (resolveEntry managed trustedServers)).mergeSort fun a b ↦
    !decide (codeUnits b.config.name < codeUnits a.config.name)

/-! ## Files -/

/-- A configuration file, as its schema admits it. -/
structure McpFile where
  servers : List McpServerConfig
  exclusive : Option Bool
  deniedServers : Option (List String)
deriving DecidableEq, Repr

/-- The schema of a server bounds its name. The first that breaks it is an error. -/
def checkServers (servers : List McpServerConfig) : Except String Unit :=
  match servers.find? fun s ↦ decide (¬ (1 ≤ utf16Length s.name ∧ utf16Length s.name ≤ 128)) with
  | some s => .error s.name
  | none => .ok ()

/-- What the managed file says about all the others. -/
def McpFile.policy (file : McpFile) : ManagedMcpPolicy :=
  ⟨file.exclusive.getD false, file.servers.map McpServerConfig.name,
    file.deniedServers.getD []⟩

/-- The three files there may be: of the administrator, of the user, of the repository. -/
structure McpFiles where
  managed : Option McpFile
  user : Option McpFile
  project : Option McpFile
deriving DecidableEq, Repr

/-- The layers the files make. The managed file's servers are a layer like the user's. -/
def McpFiles.layers (files : McpFiles) : List McpConfigLayer :=
  (files.managed.map fun f ↦ (⟨.user, f.servers⟩ : McpConfigLayer)).toList ++
  (files.user.map fun f ↦ (⟨.user, f.servers⟩ : McpConfigLayer)).toList ++
  (files.project.map fun f ↦ (⟨.approvedProject, f.servers⟩ : McpConfigLayer)).toList

def loadMcpConfiguration (files : McpFiles) (trustedServers : List String) :
    Except String (List ResolvedMcpServer) := do
  files.layers.forM fun layer ↦ checkServers layer.servers
  return resolveMcpServers files.layers ((files.managed.map McpFile.policy).getD noManagedMcp)
    trustedServers

/-! ## The definition that runs -/

/-- The definition of a name that comes last, in the order of rank. -/
def lastDefinition (layers : List McpConfigLayer) (name : String) :
    Option (McpConfigSource × McpServerConfig) :=
  ((definitions layers).filter fun d ↦ d.2.name = name).getLast?

/-- The entries are one for each name that is defined, with the last definition of the name. -/
structure Entered (defs : List (McpConfigSource × McpServerConfig)) (rows : List Entry) : Prop where
  last : ∀ e ∈ rows, e.config.name = e.name ∧
    (defs.filter fun d ↦ d.2.name = e.name).getLast? = some (e.winner, e.config)
  all : ∀ d ∈ defs, ∃ e ∈ rows, e.name = d.2.name

section Entering

variable {defs : List (McpConfigSource × McpServerConfig)} {table : Keyed Entry.name}
  {d : McpConfigSource × McpServerConfig} {layers : List McpConfigLayer} {name : String}

theorem getLast?_filter_concat_of_eq (h : d.2.name = name) :
    ((defs ++ [d]).filter fun d ↦ d.2.name = name).getLast? = some d := by
  rw [List.filter_append, List.filter_singleton, decide_eq_true h, Bool.cond_true,
    List.getLast?_concat]

theorem getLast?_filter_concat_of_ne (h : d.2.name ≠ name) :
    ((defs ++ [d]).filter fun d ↦ d.2.name = name) = defs.filter fun d ↦ d.2.name = name := by
  rw [List.filter_append, List.filter_singleton, decide_eq_false h, Bool.cond_false,
    List.append_nil]

/-- A definition that is entered is the last of its name; the other names are left alone. -/
theorem Entered.enter (h : Entered defs table.rows) :
    Entered (defs ++ [d]) (enter table d).rows := by
  by_cases hmem : ∃ e ∈ table.rows, e.name = d.2.name
  · have hrows : (Mcp.enter table d).rows = table.rows.map fun e ↦ if e.name = d.2.name then
        { e with losers := e.losers ++ [e.winner], winner := d.1, config := d.2 } else e :=
      Keyed.rows_upsert_of_mem _ hmem
    rw [hrows]
    refine ⟨fun e he ↦ ?_, fun d' hd' ↦ ?_⟩
    · obtain ⟨old, hold, rfl⟩ := List.mem_map.mp he
      by_cases hname : old.name = d.2.name
      · rw [if_pos hname]
        exact ⟨hname.symm, getLast?_filter_concat_of_eq hname.symm⟩
      · rw [if_neg hname, getLast?_filter_concat_of_ne (Ne.symm hname)]
        exact h.last old hold
    · have hentry : ∃ e ∈ table.rows, e.name = d'.2.name := by
        rcases List.mem_append.mp hd' with hd' | hd'
        · exact h.all d' hd'
        · rwa [List.mem_singleton.mp hd']
      obtain ⟨e, he, hname⟩ := hentry
      refine ⟨_, List.mem_map_of_mem he, ?_⟩
      split_ifs <;> exact hname
  · have hrows : (Mcp.enter table d).rows = table.rows ++ [⟨d.2.name, d.1, d.2, []⟩] :=
      Keyed.rows_upsert_of_not_mem _ fun e he hname ↦ hmem ⟨e, he, hname⟩
    rw [hrows]
    refine ⟨fun e he ↦ ?_, fun d' hd' ↦ ?_⟩
    · rcases List.mem_append.mp he with he | he
      · rw [getLast?_filter_concat_of_ne fun hname ↦ hmem ⟨e, he, hname.symm⟩]
        exact h.last e he
      · rw [List.mem_singleton.mp he]
        exact ⟨rfl, getLast?_filter_concat_of_eq rfl⟩
    · rcases List.mem_append.mp hd' with hd' | hd'
      · obtain ⟨e, he, hname⟩ := h.all d' hd'
        exact ⟨e, List.mem_append_left _ he, hname⟩
      · rw [List.mem_singleton.mp hd']
        exact ⟨_, List.mem_append_right _ List.mem_cons_self, rfl⟩

theorem entered_foldl (defs : List (McpConfigSource × McpServerConfig)) :
    Entered defs (defs.foldl Mcp.enter .empty).rows := by
  induction defs using List.reverseRecOn with
  | nil => exact ⟨by simp, by simp⟩
  | append_singleton defs d ih =>
    rw [List.foldl_append]
    exact ih.enter

/-- The entry of a name has its last definition, and a name without an entry has none. -/
theorem exists_entry_iff {source : McpConfigSource} {server : McpServerConfig} :
    lastDefinition layers name = some (source, server) ↔
      ∃ e ∈ (byName layers).rows, e.name = name ∧ e.winner = source ∧ e.config = server := by
  have h := entered_foldl (definitions layers)
  constructor
  · intro hlast
    have hmem := List.mem_filter.mp (List.mem_of_getLast? hlast)
    obtain ⟨e, he, hname⟩ := h.all _ hmem.1
    have heq : e.name = name := hname.trans (of_decide_eq_true hmem.2)
    have hpair := (h.last e he).2
    rw [heq] at hpair
    have := Prod.mk.inj (Option.some.inj (hpair.symm.trans hlast))
    exact ⟨e, he, heq, this.1, this.2⟩
  · rintro ⟨e, he, rfl, rfl, rfl⟩
    exact (h.last e he).2

theorem name_of_mem_byName {e : Entry} (he : e ∈ (byName layers).rows) : e.config.name = e.name :=
  ((entered_foldl (definitions layers)).last e he).1

end Entering

/-! ## Under an exclusive policy -/

section Exclusive

variable {listed : List McpServerConfig} {denied trustedServers : List String}
  {layers : List McpConfigLayer}

/-- What runs is listed with its transport, and is not denied. -/
def OnlyListedRun (listed : List McpServerConfig) (denied : List String)
    (resolved : List ResolvedMcpServer) : Prop :=
  ∀ r ∈ resolved, r.active → r.config.name ∉ denied ∧
    ∃ s ∈ listed, s.name = r.config.name ∧ s.transport = r.config.transport

/-- Of every name that is listed and not denied, the last definition is one that does not run on its
own account (it is switched off, or of a project and not trusted), or has a transport that is listed
under the name. -/
def LastIsListed (listed : List McpServerConfig) (denied trustedServers : List String)
    (layers : List McpConfigLayer) : Prop :=
  ∀ name ∈ listed.map McpServerConfig.name, name ∉ denied → ∀ source server,
    lastDefinition layers name = some (source, server) →
      server.enabled = some false ∨ (source.isProject ∧ name ∉ trustedServers) ∨
        ∃ s ∈ listed, s.name = name ∧ s.transport = server.transport

theorem active_iff {managed : ManagedMcpPolicy} (hexclusive : managed.exclusive = true)
    (e : Entry) :
    (resolveEntry managed trustedServers e).active ↔
      e.name ∉ managed.deniedServers ∧ e.name ∈ managed.allowedServers ∧
        ¬ (e.winner.isProject ∧ e.name ∉ trustedServers) ∧ e.config.enabled ≠ some false := by
  rw [resolveEntry, inactiveReason, hexclusive]
  by_cases h1 : e.name ∈ managed.deniedServers
  · simp [h1]
  by_cases h2 : e.name ∈ managed.allowedServers
  · by_cases h3 : e.winner.isProject ∧ e.name ∉ trustedServers
    · simp [h1, h2, h3]
    · by_cases h4 : e.config.enabled = some false
      · simp [h1, h2, if_neg h3, h4]
      · simp [h1, h2, h3, h4]
  · simp [h1, h2]

theorem mem_resolveMcpServers_iff {managed : ManagedMcpPolicy} {r : ResolvedMcpServer} :
    r ∈ resolveMcpServers layers managed trustedServers ↔
      ∃ e ∈ (byName layers).rows, resolveEntry managed trustedServers e = r := by
  rw [resolveMcpServers, List.mem_mergeSort, List.mem_map]

theorem onlyListedRun_resolve_iff : OnlyListedRun listed denied (resolveMcpServers layers
      ⟨true, listed.map McpServerConfig.name, denied⟩ trustedServers) ↔
    LastIsListed listed denied trustedServers layers := by
  constructor
  · intro h name hname hdenied source server hlast
    obtain ⟨e, he, rfl, rfl, rfl⟩ := exists_entry_iff.mp hlast
    by_cases hoff : e.config.enabled = some false
    · exact .inl hoff
    by_cases hproject : e.winner.isProject ∧ e.name ∉ trustedServers
    · exact .inr (.inl hproject)
    · obtain ⟨-, s, hs, hsname, hstransport⟩ := h _ (mem_resolveMcpServers_iff.mpr ⟨e, he, rfl⟩)
        ((active_iff rfl e).mpr ⟨hdenied, hname, hproject, hoff⟩)
      exact .inr (.inr ⟨s, hs, hsname.trans (name_of_mem_byName he), hstransport⟩)
  · intro h r hr hactive
    obtain ⟨e, he, rfl⟩ := mem_resolveMcpServers_iff.mp hr
    obtain ⟨hdenied, hlisted, hproject, hon⟩ := (active_iff rfl e).mp hactive
    have hname : (resolveEntry ⟨true, listed.map McpServerConfig.name, denied⟩ trustedServers
        e).config.name = e.name := name_of_mem_byName he
    rw [hname]
    refine ⟨hdenied, ?_⟩
    rcases h e.name hlisted hdenied e.winner e.config
      (exists_entry_iff.mpr ⟨e, he, rfl, rfl, rfl⟩) with hoff | huntrusted | hs
    · exact absurd hoff hon
    · exact absurd huntrusted hproject
    · exact hs

theorem resolve_of_load {files : McpFiles} {file : McpFile} {out : List ResolvedMcpServer}
    (hmanaged : files.managed = some file)
    (h : loadMcpConfiguration files trustedServers = .ok out) :
    out = resolveMcpServers files.layers file.policy trustedServers := by
  rw [loadMcpConfiguration, hmanaged] at h
  rcases hcheck : files.layers.forM (m := Except String) fun layer ↦ checkServers layer.servers
    with e | ⟨⟩
  · rw [hcheck] at h
    cases h
  · rw [hcheck] at h
    exact (Except.ok.inj h).symm

/-- **Under an exclusive managed policy** only definitions that the managed file lists run exactly
when, of every name it lists and does not deny, the definition that comes last is one it lists
itself or one that does not run anyway. The names alone do not see to that: a file that comes later
may give a listed name another meaning. -/
theorem onlyListedRun_iff_lastIsListed (listed : List McpServerConfig)
    (denied trustedServers : List String) (layers : List McpConfigLayer) :
    (OnlyListedRun listed denied (resolveMcpServers layers
        ⟨true, listed.map McpServerConfig.name, denied⟩ trustedServers) ↔
      LastIsListed listed denied trustedServers layers) ∧
    ∀ (files : McpFiles) (file : McpFile) (out : List ResolvedMcpServer),
      files.managed = some file → file.exclusive = some true →
      loadMcpConfiguration files trustedServers = .ok out →
      (OnlyListedRun file.servers (file.deniedServers.getD []) out ↔
        LastIsListed file.servers (file.deniedServers.getD []) trustedServers files.layers) := by
  refine ⟨onlyListedRun_resolve_iff, fun files file out hmanaged hexclusive hload ↦ ?_⟩
  have hpolicy : file.policy = ⟨true, file.servers.map McpServerConfig.name,
      file.deniedServers.getD []⟩ := by
    rw [McpFile.policy, hexclusive]
    rfl
  rw [resolve_of_load hmanaged hload, hpolicy]
  exact onlyListedRun_resolve_iff

/-- The administrator lists a server and its command; a project the user trusts gives the same name
another command, and that is the one that runs. -/
theorem not_onlyListedRun_projectFile : ¬ ∀ (files : McpFiles) (file : McpFile)
    (trustedServers : List String) (out : List ResolvedMcpServer),
    files.managed = some file → file.exclusive = some true →
    loadMcpConfiguration files trustedServers = .ok out →
    OnlyListedRun file.servers (file.deniedServers.getD []) out := by
  intro h
  let listed : McpServerConfig := ⟨"github", .stdio "/usr/bin/github-mcp" none none none, none⟩
  let other : McpServerConfig := ⟨"github", .stdio "./tools/serve.sh" none none none, none⟩
  let file : McpFile := ⟨[listed], some true, none⟩
  let files : McpFiles := ⟨some file, none, some ⟨[other], none, none⟩⟩
  have hlength : utf16Length "github" = 6 := by decide
  have hload : loadMcpConfiguration files ["github"] =
      .ok (resolveMcpServers files.layers file.policy ["github"]) := by
    simp [loadMcpConfiguration, McpFiles.layers, files, file, checkServers, listed, other, hlength,
      bind, Except.bind, pure, Except.pure]
  have hlast := onlyListedRun_resolve_iff.mp (h files file ["github"] _ rfl rfl hload)
  have hdefs : definitions files.layers = [(.user, listed), (.approvedProject, other)] := by
    rw [definitions, List.mergeSort_of_pairwise (by decide)]
    rfl
  have hother : lastDefinition files.layers "github" = some (.approvedProject, other) := by
    rw [lastDefinition, hdefs]
    rfl
  rcases hlast "github" (by decide) (by decide) _ _ hother with hoff | huntrusted | ⟨s, hs, -, ht⟩
  · cases hoff
  · exact huntrusted.2 (by decide)
  · rw [List.mem_singleton.mp hs] at ht
    exact absurd ht (by decide)

end Exclusive

end QwenHarness.Mcp
