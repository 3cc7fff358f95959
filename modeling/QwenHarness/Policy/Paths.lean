import QwenHarness.Pattern.Match
import QwenHarness.Protocol.Domain

/-!
# Protected paths and globs

The list of protected paths, the metadata endpoint, and the globs that describe them. A glob is
compiled to a pattern over UTF-16 code units, since that is what a regular expression without flags
steps through. In a path `*` stays within a segment and `**` crosses `/`; in any other text `*`
crosses everything but a line end.
-/

namespace QwenHarness

open Codec Pattern

namespace Policy

/-! ## Globs -/

/-- The UTF-16 code units of a string. -/
def codeUnits (s : String) : List ℕ :=
  s.toList.flatMap fun c ↦
    if c.toNat < 0x10000 then [c.toNat]
    else [0xD800 + (c.toNat - 0x10000) / 0x400, 0xDC00 + (c.toNat - 0x10000) % 0x400]

def slash : ℕ := '/'.toNat

def star : ℕ := '*'.toNat

def question : ℕ := '?'.toNat

/-- `[^/]`. -/
def notSlash (c : ℕ) : Bool := decide (c ≠ slash)

/-- `.`, which is anything but a line end. -/
def notLineEnd (c : ℕ) : Bool := decide (c ∉ [0x0A, 0x0D, 0x2028, 0x2029])

inductive GlobFlavor where
  | path
  | text
deriving DecidableEq, Repr

/-- What `*` and `?` stand for. -/
def GlobFlavor.wild : GlobFlavor → ℕ → Bool
  | .path => notSlash
  | .text => notLineEnd

/-- Compile the code units of a glob. `afterSlash` says whether the part before is a slash that a
trailing `**` takes back, so that `/etc/**` covers `/etc`. -/
def globToRegExp (flavor : GlobFlavor) : List ℕ → List (Pattern.Part ℕ)
  | [] => []
  | c :: rest =>
    if flavor = .path ∧ c = slash ∧ rest = [star, star] then [.tail slash notLineEnd]
    else if c = star then
      match rest with
      | d :: rest' =>
        if d = star then
          match rest' with
          | e :: rest'' =>
            if e = slash then
              (if flavor = .path then .segments slash else .many notLineEnd) ::
                globToRegExp flavor rest''
            else .many notLineEnd :: globToRegExp flavor (e :: rest'')
          | [] => [.many notLineEnd]
        else .many flavor.wild :: globToRegExp flavor (d :: rest')
      | [] => [.many flavor.wild]
    else if c = question then .one flavor.wild :: globToRegExp flavor rest
    else .letter c :: globToRegExp flavor rest

/-- Match a canonical absolute path. -/
def matchGlob (pattern value : String) : Bool :=
  accepts (globToRegExp .path (codeUnits pattern)) (codeUnits value)

/-- Match a command line, a command, a network host or a name of MCP. -/
def matchTextGlob (pattern value : String) : Bool :=
  accepts (globToRegExp .text (codeUnits pattern)) (codeUnits value)

/-- A glob matches the text it is written as: a wildcard also stands for its own spelling. -/
theorem accepts_globToRegExp_self (flavor : GlobFlavor) (p : List ℕ) :
    accepts (globToRegExp flavor p) p = true := by
  have stars : ∀ w : List ℕ, (∀ a ∈ w, a = star ∨ a = slash) →
      (Part.many notLineEnd).Denotes w := by
    intro w hw a ha
    rcases hw a ha with rfl | rfl <;> decide
  have wild : ∀ a, a = star ∨ a = question → flavor.wild a = true := by
    rintro a (rfl | rfl) <;> cases flavor <;> decide
  fun_induction globToRegExp flavor p with
  | case1 => rfl
  | case2 c rest h =>
    obtain ⟨-, rfl, rfl⟩ := h
    exact accepts_cons (w := [slash, star, star])
      (.inr ⟨[star, star], rfl, stars _ (by simp)⟩) (r := []) rfl
  | case3 rest h ih =>
    refine accepts_cons (w := [star, star, slash]) ?_ ih
    split_ifs
    · exact .inr ⟨[star, star], rfl⟩
    · exact stars _ (by simp)
  | case4 e rest _ h ih => exact accepts_cons (w := [star, star]) (stars _ (by simp)) ih
  | case5 => exact accepts_cons (w := [star, star]) (stars _ (by simp)) (r := []) rfl
  | case6 e rest _ h ih =>
    exact accepts_cons (w := [star]) (fun a ha ↦ wild a (.inl (List.mem_singleton.mp ha))) ih
  | case7 =>
    exact accepts_cons (w := [star]) (fun a ha ↦ wild a (.inl (List.mem_singleton.mp ha)))
      (r := []) rfl
  | case8 rest _ _ ih =>
    exact accepts_cons (w := [question]) ⟨question, wild _ (.inr rfl), rfl⟩ ih
  | case9 c rest _ _ _ ih => exact accepts_cons (w := [c]) rfl ih

theorem matchGlob_self (pattern : String) : matchGlob pattern pattern = true :=
  accepts_globToRegExp_self _ _

theorem matchTextGlob_self (pattern : String) : matchTextGlob pattern pattern = true :=
  accepts_globToRegExp_self _ _

/-- Expand a leading `~` against a home directory. -/
def expandHome (pattern homeDir : String) : String :=
  if pattern = "~" then homeDir
  else if "~/".toList <+: pattern.toList then
    homeDir ++ String.ofList (pattern.toList.drop 1)
  else pattern

/-- Whether the path is the root itself or lives beneath it. -/
def isWithin (root path : String) : Bool :=
  decide (path = root) ||
    decide ((if root.toList.getLast? = some '/' then root.toList else root.toList ++ ['/']) <+:
      path.toList)

/-! ## Protected paths -/

inductive ProtectedClass where
  | gitInternal
  | credentialFile
  | userCredentialStore
  | systemPath
  | daemonSocket
  | metadataEndpoint
deriving DecidableEq, Repr

def ProtectedClass.name : ProtectedClass → String
  | .gitInternal => "git-internal"
  | .credentialFile => "credential-file"
  | .userCredentialStore => "user-credential-store"
  | .systemPath => "system-path"
  | .daemonSocket => "daemon-socket"
  | .metadataEndpoint => "metadata-endpoint"

/-- Which accesses a rule covers. Credentials are protected against reads as well. -/
inductive AccessKind where
  | read
  | write
deriving DecidableEq, Repr

structure ProtectedPathRule where
  id : String
  cls : ProtectedClass
  /-- A leading `~` stands for the home directory. -/
  patterns : List String
  appliesTo : List AccessKind
  /-- The rule is off inside the workspace root. -/
  workspaceExempt : Bool
  why : String
deriving Repr

structure ProtectedMatch where
  ruleId : String
  cls : ProtectedClass
  pattern : String
  target : String
  why : String
deriving DecidableEq, Repr

/-- A credential store under the home directory. -/
def userStore (id : String) (patterns : List String) (why : String) : ProtectedPathRule :=
  ⟨id, .userCredentialStore, patterns, [.read, .write], false, why⟩

/-- A credential file, wherever it lies. -/
def credentialFile (id : String) (patterns : List String) (why : String) : ProtectedPathRule :=
  ⟨id, .credentialFile, patterns, [.read, .write], false, why⟩

/-- A directory of the system and all below it, unless the workspace is there. -/
def systemPath (id dir why : String) : ProtectedPathRule :=
  ⟨id, .systemPath, [dir, dir ++ "/**"], [.read, .write], true, why⟩

def protectedPathRules : List ProtectedPathRule :=
  [⟨"git-internal", .gitInternal, ["**/.git", "**/.git/**"], [.write], false,
      "repository .git/** writes are reachable only through the dedicated validated Git tool"⟩,
    credentialFile "dotenv" ["**/.env", "**/.env.*"]
      "environment files routinely hold live credentials",
    credentialFile "private-key-material" ["**/*.pem", "**/*.key", "**/*.p12"]
      "private key material",
    credentialFile "package-registry-credentials" ["**/.npmrc", "**/.pypirc"]
      "package registry tokens",
    credentialFile "netrc" ["**/.netrc", "**/_netrc"]
      "machine credentials for arbitrary hosts",
    credentialFile "git-credentials"
      ["**/.git-credentials", "**/.git/credentials", "**/.config/git/credentials"]
      "Git credential files hold plaintext forge tokens",
    userStore "ssh" ["~/.ssh", "~/.ssh/**"] "SSH private keys and known-hosts",
    userStore "aws" ["~/.aws", "~/.aws/**"] "AWS access keys",
    userStore "gcloud" ["~/.config/gcloud", "~/.config/gcloud/**"]
      "Google Cloud application-default credentials",
    userStore "kube" ["~/.kube", "~/.kube/**"] "Kubernetes cluster credentials",
    userStore "docker-config" ["~/.docker/config.json"] "Docker registry auth",
    userStore "gh-hosts" ["~/.config/gh/hosts.yml"] "GitHub CLI OAuth token",
    userStore "xdg-credential-stores"
      ["~/.config/containers/auth.json", "~/.local/share/keyrings/**", "~/.gnupg",
        "~/.gnupg/**"]
      "equivalent XDG credential stores",
    systemPath "system-etc" "/etc" "system configuration, including shadow and PAM",
    systemPath "system-proc" "/proc"
      "kernel and process introspection, including other processes’ environments",
    systemPath "system-sys" "/sys" "kernel object tree",
    systemPath "system-dev" "/dev" "raw devices",
    systemPath "system-boot" "/boot" "boot loader and kernel images",
    systemPath "system-root-home" "/root" "the root account's home directory",
    ⟨"daemon-sockets", .daemonSocket,
      ["/var/run/docker.sock", "/run/docker.sock", "/var/run/containerd/**",
        "/run/containerd/**", "/run/podman/**", "/var/run/podman/**", "/run/crio/**",
        "/run/user/*/podman/**", "/run/systemd/private"],
      [.read, .write], false,
      "a container/daemon socket is root-equivalent: it can mount the host and escape any " ++
        "sandbox"⟩]

/-- What a rule says about one path: its first pattern that matches. -/
def ProtectedPathRule.matchOf (rule : ProtectedPathRule) (path : String) (access : AccessKind)
    (workspaceRoot homeDir : String) : Option ProtectedMatch :=
  if access ∉ rule.appliesTo then none
  else if rule.workspaceExempt ∧ isWithin workspaceRoot path then none
  else
    ((rule.patterns.map fun pattern ↦ expandHome pattern homeDir).find?
      fun pattern ↦ matchGlob pattern path).map
        fun pattern ↦ ⟨rule.id, rule.cls, pattern, path, rule.why⟩

/-- Every rule that covers the path. -/
def classifyPath (path : String) (access : AccessKind) (workspaceRoot homeDir : String) :
    List ProtectedMatch :=
  protectedPathRules.filterMap fun rule ↦ rule.matchOf path access workspaceRoot homeDir

/-- Where a cloud hands out the credentials of an instance. -/
def metadataHosts : List String :=
  ["169.254.169.254", "metadata.google.internal", "metadata.goog", "100.100.100.100",
    "fd00:ec2::254", "[fd00:ec2::254]"]

/-- One to three decimal digits. -/
def isShortDecimal (s : List Char) : Bool :=
  decide (1 ≤ s.length ∧ s.length ≤ 3) && s.all fun c ↦ decide ('0' ≤ c ∧ c ≤ '9')

/-- An address `169.254.x.y`. -/
def isLinkLocalV4 (host : String) : Bool :=
  match host.toList.splitOn '.' with
  | [a, b, x, y] =>
    decide (a = "169".toList ∧ b = "254".toList) && isShortDecimal x && isShortDecimal y
  | _ => false

/-! ## Files whose edit is more than an edit -/

def executablePatterns : List String :=
  ["**/*.sh", "**/*.bash", "**/*.zsh", "**/*.fish", "**/*.ps1", "**/*.bat", "**/*.cmd",
    "**/*.exe", "**/*.run", "**/*.appimage"]

def gitHookPatterns : List String :=
  ["**/.git/hooks/**", "**/.husky/**", "**/.pre-commit-config.yaml", "**/.githooks/**"]

def packagePatterns : List String :=
  ["**/package.json", "**/package-lock.json", "**/pnpm-lock.yaml", "**/pnpm-workspace.yaml",
    "**/yarn.lock", "**/npm-shrinkwrap.json", "**/setup.py", "**/pyproject.toml",
    "**/requirements.txt", "**/Pipfile", "**/Cargo.toml", "**/Gemfile", "**/*.gemspec",
    "**/Makefile", "**/GNUmakefile", "**/build.gradle", "**/pom.xml"]

inductive SensitiveEditReason where
  | executable
  | gitHook
  | packageManifest
deriving DecidableEq, Repr

def SensitiveEditReason.name : SensitiveEditReason → String
  | .executable => "executable"
  | .gitHook => "git-hook"
  | .packageManifest => "package-manifest"

/-- Why an edit of the file amounts to running something later. -/
def sensitiveEditReason (path : String) (executable : Bool) : Option SensitiveEditReason :=
  if executable then some .executable
  else if gitHookPatterns.any fun p ↦ matchGlob p path then some .gitHook
  else if packagePatterns.any fun p ↦ matchGlob p path then some .packageManifest
  else if executablePatterns.any fun p ↦ matchGlob p path then some .executable
  else none

/-! ## By characters

Whether the list lets a path go, checked on the characters of its patterns: they are taken from the
spelling of the patterns once. -/

theorem map_patterns_cons {rule : ProtectedPathRule} {rules : List ProtectedPathRule}
    {css : List (List Char)} {table : List (List (List Char))}
    (hrule : rule.patterns.map String.toList = css)
    (hrules : (rules.map fun rule ↦ rule.patterns.map String.toList) = table) :
    ((rule :: rules).map fun rule ↦ rule.patterns.map String.toList) = css :: table := by
  rw [List.map_cons, hrule, hrules]

/-- The characters of the patterns. -/
def protectedChars : { table : List (List (List Char)) //
    (protectedPathRules.map fun rule ↦ rule.patterns.map String.toList) = table } := by
  apply Subtype.mk
  unfold protectedPathRules userStore credentialFile systemPath
  -- the table is read off the spelling, one pattern after the other
  repeat' first
    | with_reducible apply toList_eq; rfl
    | with_reducible exact toList_append_eq rfl rfl
    | with_reducible apply map_patterns_cons
    | with_reducible apply map_toList_cons
    | with_reducible exact List.map_nil

/-- The UTF-16 code units of a character. -/
def charUnits (c : Char) : List ℕ :=
  if c.toNat < 0x10000 then [c.toNat]
  else [0xD800 + (c.toNat - 0x10000) / 0x400, 0xDC00 + (c.toNat - 0x10000) % 0x400]

theorem codeUnits_ofList (s : List Char) : codeUnits (String.ofList s) = s.flatMap charUnits := by
  rw [codeUnits, String.toList_ofList]
  rfl

theorem codeUnits_eq (s : String) : codeUnits s = s.toList.flatMap charUnits := rfl

/-- `expandHome`, by characters. -/
def expandChars (pattern homeDir : List Char) : List Char :=
  if pattern = ['~'] then homeDir
  else if ['~', '/'] <+: pattern then homeDir ++ pattern.drop 1
  else pattern

theorem toList_expandHome (pattern homeDir : String) :
    (expandHome pattern homeDir).toList = expandChars pattern.toList homeDir.toList := by
  have htilde : pattern = "~" ↔ pattern.toList = ['~'] := by
    rw [← String.toList_inj, toList_eq (rfl : "~" = String.ofList _)]
  rw [expandHome, expandChars, toList_eq (rfl : "~/" = String.ofList _)]
  by_cases h : pattern = "~"
  · rw [if_pos h, if_pos (htilde.mp h)]
  · rw [if_neg h, if_neg (htilde.not.mp h)]
    split_ifs
    · rw [String.toList_append, String.toList_ofList]
    · rfl

/-- None of the patterns covers the path. -/
def spares (patterns : List (List Char)) (path homeDir : List Char) : Bool :=
  patterns.all fun pattern ↦
    !accepts (globToRegExp .path ((expandChars pattern homeDir).flatMap charUnits))
      (path.flatMap charUnits)

theorem matchOf_eq_none {rule : ProtectedPathRule} {path homeDir : String}
    (h : spares (rule.patterns.map String.toList) path.toList homeDir.toList = true)
    (access : AccessKind) (workspaceRoot : String) :
    rule.matchOf path access workspaceRoot homeDir = none := by
  have hnone : (rule.patterns.map fun pattern ↦ expandHome pattern homeDir).find?
      (fun pattern ↦ matchGlob pattern path) = none := by
    refine List.find?_eq_none.mpr fun pattern hpattern ↦ ?_
    obtain ⟨spelled, hspelled, rfl⟩ := List.mem_map.mp hpattern
    have hspare := List.all_eq_true.mp h _ (List.mem_map_of_mem hspelled)
    rw [← toList_expandHome] at hspare
    exact Bool.eq_false_iff.mp ((Bool.not_eq_true' _).mp hspare)
  rw [ProtectedPathRule.matchOf, hnone, Option.map_none, ite_self, ite_self]

theorem classifyPath_eq_nil {path homeDir : String} {cs ds : List Char}
    (hpath : path = String.ofList cs) (hhome : homeDir = String.ofList ds)
    (h : (protectedChars.val.all fun patterns ↦ spares patterns cs ds) = true)
    (access : AccessKind) (workspaceRoot : String) :
    classifyPath path access workspaceRoot homeDir = [] := by
  rw [← protectedChars.property] at h
  rw [← toList_eq hpath, ← toList_eq hhome] at h
  refine List.filterMap_eq_nil_iff.mpr fun rule hrule ↦ ?_
  exact matchOf_eq_none (List.all_eq_true.mp h _ (List.mem_map_of_mem hrule)) access workspaceRoot

end Policy

end QwenHarness
