import QwenHarness.Mcp.Naming
import QwenHarness.Policy.Invariants
import QwenHarness.Runtime.Environment
import QwenHarness.Tools.Pipeline

/-!
# Offering the tools of connected servers

Every connected server names its own tools. What the model is offered is the union of the servers,
and what a call reaches is looked up by the name in one table of all of them, where a later entry
takes the place of an earlier one. So the names within a server are told apart, and the tools of two
servers are told apart only as far as their names happen to be.
-/

namespace QwenHarness.Mcp

open Policy Codec

/-! ## Clients -/

structure McpToolAnnotations where
  readOnlyHint : Option Bool
  destructiveHint : Option Bool
  idempotentHint : Option Bool
  openWorldHint : Option Bool
deriving DecidableEq, Repr

structure McpTool where
  name : String
  description : Option String
  inputSchema : Option Arguments
  annotations : Option McpToolAnnotations

structure McpCallOutput where
  text : String
  isError : Bool
deriving DecidableEq, Repr

/-- A client after it was told to connect. -/
structure McpClient where
  server : String
  ready : Bool
  /-- What the server lists, in its order and with whatever repetitions. -/
  tools : List McpTool
  callTool : String → Arguments → Except String McpCallOutput

/-- The names `discover` gives to the tools. -/
def McpClient.namedTools (client : McpClient) (builtinNames : List String) : List NamedMcpTool :=
  assignToolNames (client.tools.map fun t ↦ ⟨client.server, t.name⟩) builtinNames

/-! ## The table -/

/-- What a name stands for. -/
structure Bound where
  client : McpClient
  tool : McpTool
  server : String

/-- What the model is shown of a tool. -/
structure ModelTool where
  name : String
  description : String
  parameters : Arguments

/-- A tool under the name it is offered by. -/
structure Offer where
  name : String
  bound : Bound

def Offer.modelTool (offer : Offer) : ModelTool where
  name := offer.name
  description := offer.bound.tool.description.getD ""
  parameters := offer.bound.tool.inputSchema.getD [("type", .str "object")]

/-- The tools of one client under their names. The tool is looked up by its raw name. -/
def McpClient.offers (client : McpClient) (builtinNames : List String) : List Offer :=
  (client.namedTools builtinNames).filterMap fun named ↦
    (client.tools.find? fun t ↦ t.name = named.tool).map fun tool ↦
      ⟨named.name, ⟨client, tool, named.server⟩⟩

/-- The tools of all clients that are ready, in their order. -/
def offers (clients : List McpClient) (builtinNames : List String) : List Offer :=
  (clients.filter McpClient.ready).flatMap fun client ↦ client.offers builtinNames

/-- The table of names. What was entered last stands first, and is what a lookup finds. -/
def boundByName (offered : List Offer) : List (String × Bound) :=
  offered.foldl (fun table o ↦ (o.name, o.bound) :: table) []

/-! ## The executor -/

/-- A tool that does not say it only reads is a side effect. -/
def sideEffectOf (tool : McpTool) : Bool :=
  !decide ((tool.annotations.bind McpToolAnnotations.readOnlyHint) = some true)

/-- What the policy engine, the sanitizer and the clock are asked. -/
structure Surroundings where
  sys : Platform
  policyContext : PolicyContext
  /-- The digest of the canonical arguments. -/
  argumentsDigest : Arguments → String
  /-- What the model is shown of an output: the text, and whether it was cut. -/
  preview : String → String × Bool
  durationMs : ℤ

def mcpActionFor (env : Surroundings) (server tool : String) (args : Arguments)
    (sideEffect : Bool) : NormalizedAction :=
  .mcp server tool sideEffect (env.argumentsDigest args)

/-- What has to be among the arguments, as far as the tool's schema can be read. -/
def requiredKeys (tool : McpTool) : List String :=
  match (tool.inputSchema.getD []).lookup "required" with
  | some (.arr entries) => entries.filterMap fun entry ↦
      match entry with
      | .str key => some key
      | _ => none
  | _ => []

def failed (env : Surroundings) (category message : String) : ToolExecutionResult :=
  ⟨false, message, some category, none, none, false, env.durationMs⟩

/-- Check the arguments, ask the policy, and only then call the server. -/
def invokeMcpTool (env : Surroundings) (bound : Bound) (args : Arguments) : ToolExecutionResult :=
  let required := requiredKeys bound.tool
  if required.any fun key ↦ (args.lookup key).isNone then
    failed env "invalid-input"
      ("(root): missing required field(s): " ++ ", ".intercalate required)
  else
    let action := mcpActionFor env bound.server bound.tool.name args (sideEffectOf bound.tool)
    let decision := evaluate env.sys action env.policyContext
    match decision.outcome with
    | .deny => failed env "policy-denied"
        ("policy denied " ++ decision.description ++ ": " ++ decision.reason)
    | .ask => failed env "permission-denied"
        ("approval required and not granted for " ++ decision.description)
    | .allow | .passthrough =>
      match bound.client.callTool bound.tool.name args with
      | .error message => failed env "execution-failed" message
      | .ok output =>
        let (text, truncated) := env.preview output.text
        ⟨!output.isError, text, if output.isError then some "execution-failed" else none,
          if output.isError then none else some (actionDigest env.sys action), none, truncated,
          env.durationMs⟩

/-- What the policy says about a tool. -/
def judge (env : Surroundings) (bound : Bound) (args : Arguments) : ToolEvaluation :=
  let decision := evaluate env.sys
    (mcpActionFor env bound.server bound.tool.name args (sideEffectOf bound.tool))
    env.policyContext
  { status := match decision.outcome with
      | .deny => .deny
      | .ask => .ask
      | .allow | .passthrough => .allow
    actionDigest := decision.actionDigest
    description := decision.description
    risk := .medium
    reason := decision.reason
    source := Tools.DecisionStage.name decision.source.stage ++ ":" ++ decision.source.id }

/-- An executor, as far as a call goes through it. -/
structure Executor where
  evaluate : String → Arguments → ToolEvaluation
  execute : String → Arguments → ToolExecutionResult

def unknownTool (toolName : String) : String :=
  "no connected MCP server exposes '" ++ toolName ++ "'"

def mcpExecutor (env : Surroundings) (table : List (String × Bound)) : Executor where
  evaluate toolName args :=
    match table.lookup toolName with
    | none => ⟨.deny, "", toolName, .high, unknownTool toolName, "mcp:unknown-tool"⟩
    | some bound => judge env bound args
  execute toolName args :=
    match table.lookup toolName with
    | none => failed env "denied" (unknownTool toolName)
    | some bound => invokeMcpTool env bound args

structure McpSurface where
  tools : List ModelTool
  executor : Executor

/-- Offer the tools of the clients, and route what is called by its name. -/
def connectMcp (env : Surroundings) (clients : List McpClient) (builtinNames : List String) :
    McpSurface where
  tools := (offers clients builtinNames).map Offer.modelTool
  executor := mcpExecutor env (boundByName (offers clients builtinNames))

/-! ## The composite -/

def inProcessToolNames : List String := ["retrieve_output", "ask_user", "delegate"]

/-- In the process first, by a fixed list; then the servers; then the built-in pipeline. -/
def compositeExecutor (builtin : Executor) (mcp : McpSurface) (inProcess : Executor) : Executor :=
  let pick (toolName : String) : Executor :=
    if toolName ∈ inProcessToolNames then inProcess
    else if mcpNamePrefix.toList <+: toolName.toList ∧ toolName ∈ mcp.tools.map ModelTool.name then
      mcp.executor
    else builtin
  { evaluate := fun toolName args ↦ (pick toolName).evaluate toolName args
    execute := fun toolName args ↦ (pick toolName).execute toolName args }

/-! ## What is offered is what is reached -/

section Offered

variable {clients : List McpClient} {builtinNames : List String} {client : McpClient}

theorem mem_namedTools_iff {server tool : String} :
    (∃ named ∈ client.namedTools builtinNames, named.server = server ∧ named.tool = tool) ↔
      server = client.server ∧ ∃ t ∈ client.tools, t.name = tool := by
  obtain ⟨taken, h⟩ := assigned_assignToolNames
    (client.tools.map fun t ↦ ⟨client.server, t.name⟩) builtinNames
  have hrefs := h.refs
  have hmem : (⟨server, tool⟩ : RawMcpToolRef) ∈
      (client.namedTools builtinNames).map (fun t ↦ ⟨t.server, t.tool⟩) ↔
      (⟨server, tool⟩ : RawMcpToolRef) ∈
        client.tools.map fun t ↦ ⟨client.server, t.name⟩ := by
    rw [McpClient.namedTools, hrefs, List.mem_mergeSort]
  simp only [List.mem_map, RawMcpToolRef.mk.injEq] at hmem
  rw [hmem]
  constructor
  · rintro ⟨t, ht, rfl, rfl⟩
    exact ⟨rfl, t, ht, rfl⟩
  · rintro ⟨rfl, t, ht, rfl⟩
    exact ⟨t, ht, rfl, rfl⟩

/-- Every name a client gives is offered, for the tool it was given to. -/
theorem offers_map_name : (client.offers builtinNames).map Offer.name =
    (client.namedTools builtinNames).map NamedMcpTool.name := by
  have hsome : ∀ named ∈ client.namedTools builtinNames,
      (client.tools.find? fun t ↦ t.name = named.tool).isSome := by
    intro named hnamed
    obtain ⟨-, t, ht, hname⟩ := mem_namedTools_iff.mp ⟨named, hnamed, rfl, rfl⟩
    exact List.find?_isSome.mpr ⟨t, ht, decide_eq_true hname⟩
  rw [McpClient.offers]
  generalize client.namedTools builtinNames = names at hsome
  induction names with
  | nil => rfl
  | cons named names ih =>
    obtain ⟨tool, htool⟩ := Option.isSome_iff_exists.mp (hsome named List.mem_cons_self)
    rw [List.filterMap_cons, htool]
    simp only [Option.map_some, List.map_cons]
    rw [ih fun n hn ↦ hsome n (List.mem_cons_of_mem _ hn)]

/-- The names of one client differ, are no built-in names, and tell the client's server. -/
theorem offers_names (client : McpClient) (builtinNames : List String) :
    ((client.offers builtinNames).map Offer.name).Nodup ∧
      (∀ n ∈ (client.offers builtinNames).map Offer.name, n ∉ builtinNames) ∧
      ∀ n ∈ (client.offers builtinNames).map Offer.name, NamedAfter client.server n := by
  obtain ⟨taken, h⟩ := assigned_assignToolNames
    (client.tools.map fun t ↦ ⟨client.server, t.name⟩) builtinNames
  rw [offers_map_name]
  refine ⟨h.nodup, fun n hn ↦ ?_, fun n hn ↦ ?_⟩
  · obtain ⟨named, hnamed, rfl⟩ := List.mem_map.mp hn
    exact h.builtin named hnamed
  · obtain ⟨named, hnamed, rfl⟩ := List.mem_map.mp hn
    obtain ⟨hserver, -⟩ := mem_namedTools_iff.mp ⟨named, hnamed, rfl, rfl⟩
    exact hserver ▸ h.named named hnamed

/-- In a table without repetitions a name finds what was entered under it. -/
theorem lookup_boundByName {offered : List Offer} (h : (offered.map Offer.name).Nodup) {o : Offer}
    (ho : o ∈ offered) : (boundByName offered).lookup o.name = some o.bound := by
  induction offered using List.reverseRecOn with
  | nil => cases ho
  | append_singleton offered x ih =>
    have htable : boundByName (offered ++ [x]) = (x.name, x.bound) :: boundByName offered := by
      rw [boundByName, List.foldl_append]
      rfl
    rw [List.map_append, List.map_singleton] at h
    obtain ⟨hnodup, -, hdisjoint⟩ := List.nodup_append.mp h
    rw [htable, List.lookup_cons]
    rcases List.mem_append.mp ho with ho | ho
    · have hne : o.name ≠ x.name :=
        hdisjoint _ (List.mem_map_of_mem ho) _ (List.mem_singleton_self _)
      rw [beq_false_of_ne hne]
      exact ih hnodup ho
    · rw [List.mem_singleton.mp ho, beq_self_eq_true]

/-- Servers whose names are normalized alike give their tools different names. -/
def KeptApart (clients : List McpClient) (builtinNames : List String) : Prop :=
  (clients.filter McpClient.ready).Pairwise fun c d ↦
    normalizeSegment c.server = normalizeSegment d.server →
      ∀ n ∈ (c.namedTools builtinNames).map NamedMcpTool.name,
        n ∉ (d.namedTools builtinNames).map NamedMcpTool.name

/-- The names offered differ from each other and from the built-in names, and a call under a name is
judged as, and executed by, the very tool whose description was offered under it. -/
structure OffersItself (env : Surroundings) (builtin inProcess : Executor)
    (clients : List McpClient) (builtinNames : List String) : Prop where
  nodup : ((connectMcp env clients builtinNames).tools.map ModelTool.name).Nodup
  notBuiltin : ∀ t ∈ (connectMcp env clients builtinNames).tools, t.name ∉ builtinNames
  reached : ∀ o ∈ offers clients builtinNames, ∀ args,
    (compositeExecutor builtin (connectMcp env clients builtinNames) inProcess).evaluate o.name
        args = judge env o.bound args ∧
      (compositeExecutor builtin (connectMcp env clients builtinNames) inProcess).execute o.name
        args = invokeMcpTool env o.bound args

theorem map_name_offers : (offers clients builtinNames).map Offer.name =
    (clients.filter McpClient.ready).flatMap fun c ↦
      (c.namedTools builtinNames).map NamedMcpTool.name := by
  rw [offers, List.map_flatMap]
  simp only [offers_map_name]

theorem nodup_offers_iff :
    ((offers clients builtinNames).map Offer.name).Nodup ↔ KeptApart clients builtinNames := by
  rw [map_name_offers, List.nodup_flatMap, KeptApart]
  have hnames : ∀ c : McpClient, ((c.namedTools builtinNames).map NamedMcpTool.name).Nodup ∧
      ∀ n ∈ (c.namedTools builtinNames).map NamedMcpTool.name, NamedAfter c.server n := fun c ↦ by
    rw [← offers_map_name]
    exact ⟨(offers_names c builtinNames).1, (offers_names c builtinNames).2.2⟩
  rw [and_iff_right fun c _ ↦ (hnames c).1]
  refine List.Pairwise.iff fun c d ↦ ⟨fun h _ n hc hd ↦ h hc hd, fun h n hc hd ↦ ?_⟩
  have hsegment := segment_eq_of_namedAfter ((hnames c).2 n hc) ((hnames d).2 n hd)
  exact h hsegment n hc hd

theorem mcpNamePrefix_of_namedAfter {server name : String} (h : NamedAfter server name) :
    mcpNamePrefix.toList <+: name.toList := by
  obtain ⟨rest, -, heq⟩ := h
  exact ⟨_, heq.symm⟩

/-- A name with the prefix of servers is not one of the names that stay in the process. -/
theorem not_mem_inProcessToolNames {name : String} (h : mcpNamePrefix.toList <+: name.toList) :
    name ∉ inProcessToolNames := by
  intro hmem
  have hnone : ∀ n ∈ inProcessToolNames, ¬ mcpNamePrefix.toList <+: n.toList := by decide
  exact hnone name hmem h

/-- **What is offered under a name is what a call under the name reaches** exactly when no two ready
servers whose names are normalized alike give one name to a tool of each. Within one server names
are told apart, and the built-in names are always left alone. -/
theorem offersItself_iff_keptApart (env : Surroundings) (builtin inProcess : Executor)
    (clients : List McpClient) (builtinNames : List String) :
    OffersItself env builtin inProcess clients builtinNames ↔ KeptApart clients builtinNames := by
  have htools : (connectMcp env clients builtinNames).tools.map ModelTool.name =
      (offers clients builtinNames).map Offer.name := by
    rw [connectMcp, List.map_map]
    rfl
  refine ⟨fun h ↦ nodup_offers_iff.mp (htools ▸ h.nodup), fun h ↦ ?_⟩
  have hnodup := nodup_offers_iff.mpr h
  have hclient : ∀ o ∈ offers clients builtinNames, ∃ c : McpClient,
      o.name ∈ (c.offers builtinNames).map Offer.name := fun o ho ↦ by
    obtain ⟨c, -, hc⟩ := List.mem_flatMap.mp ho
    exact ⟨c, List.mem_map_of_mem hc⟩
  refine ⟨htools ▸ hnodup, fun t ht ↦ ?_, fun o ho args ↦ ?_⟩
  · obtain ⟨o, ho, rfl⟩ := List.mem_map.mp ht
    obtain ⟨c, hc⟩ := hclient o ho
    exact (offers_names c builtinNames).2.1 _ hc
  · obtain ⟨c, hc⟩ := hclient o ho
    have hprefixed := mcpNamePrefix_of_namedAfter ((offers_names c builtinNames).2.2 _ hc)
    have hoffered : o.name ∈ (connectMcp env clients builtinNames).tools.map ModelTool.name := by
      rw [htools]
      exact List.mem_map_of_mem ho
    have hlookup := lookup_boundByName hnodup ho
    simp only [compositeExecutor, if_neg (not_mem_inProcessToolNames hprefixed),
      if_pos (And.intro hprefixed hoffered)]
    simp only [connectMcp, mcpExecutor, hlookup, and_self]

/-- Two servers whose names differ in a dot and an underscore, each with a tool of the same name. -/
theorem not_offersItself_alikeServers : ¬ ∀ (env : Surroundings) (builtin inProcess : Executor)
    (clients : List McpClient) (builtinNames : List String),
    OffersItself env builtin inProcess clients builtinNames := by
  intro h
  let tool : McpTool := ⟨"read", none, none, none⟩
  let client (server : String) : McpClient := ⟨server, true, [tool], fun _ _ ↦ .error ""⟩
  let env : Surroundings :=
    ⟨examplePlatform, exampleContext, fun _ ↦ "", fun text ↦ (text, false), 0⟩
  have hnodup := (h env (mcpExecutor env []) (mcpExecutor env [])
    [client "team.docs", client "team_docs"] []).nodup
  have hname : ∀ server, ((client server).namedTools []).map NamedMcpTool.name =
      [toolName server "read"] := fun server ↦ by
    rw [McpClient.namedTools, assignToolNames]
    simp only [client, tool, List.map_cons, List.map_nil, List.mergeSort_singleton,
      List.foldl_cons, List.foldl_nil, assignName]
    rfl
  have hnames : (connectMcp env [client "team.docs", client "team_docs"] []).tools.map
      ModelTool.name = [toolName "team.docs" "read", toolName "team_docs" "read"] := by
    rw [connectMcp, List.map_map]
    change (offers _ _).map Offer.name = _
    rw [map_name_offers]
    simp only [client, List.filter_cons, if_true, List.filter_nil, List.flatMap_cons,
      List.flatMap_nil, List.append_nil]
    exact congrArg₂ _ (hname "team.docs") (hname "team_docs")
  have hsame : toolName "team.docs" "read" = toolName "team_docs" "read" := by decide
  rw [hnames, hsame] at hnodup
  exact absurd hnodup (by simp)

end Offered

end QwenHarness.Mcp
