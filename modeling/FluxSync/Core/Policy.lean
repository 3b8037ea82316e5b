import FluxSync.Types

namespace FluxSync

inductive Status
  | inactive
  | syncing
  deriving DecidableEq

/-- Always, Ask and Never in the user interface. -/
inductive Rule
  | allow
  | ask
  | deny
  deriving DecidableEq

inductive Direction
  | inbound
  | outbound
  deriving DecidableEq

inductive Decision
  | pass
  | defer
  | block
  deriving DecidableEq

structure FirewallPolicy where
  enabled : Bool := false
  text : Rule := .allow
  url : Rule := .allow
  code : Rule := .allow
  image : Rule := .allow
  sensitive : Rule := .deny
  deriving DecidableEq

variable {p : FirewallPolicy} {kind : Kind} {sensitive : Bool} {dir : Direction}

def Rule.severity : Rule → ℕ
  | .allow => 0
  | .ask => 1
  | .deny => 2

def Rule.stricter (r other : Rule) : Rule := if r.severity < other.severity then other else r

/-- Only a policy saved by an older build can hold an `ask`. -/
def Rule.normalized (r : Rule) : Rule := if r = .ask then .deny else r

namespace FirewallPolicy

def normalized (p : FirewallPolicy) : FirewallPolicy :=
  { p with
    text := p.text.normalized
    url := p.url.normalized
    code := p.code.normalized
    image := p.image.normalized
    sensitive := p.sensitive.normalized }

/-- Files follow the image rule. -/
def ruleFor (p : FirewallPolicy) : Kind → Rule
  | .text => p.text
  | .url => p.url
  | .code => p.code
  | .image | .file => p.image

/-- Both directions share one table. -/
def decide (p : FirewallPolicy) (kind : Kind) (sensitive : Bool) (_dir : Direction) : Decision :=
  if !p.enabled then .pass
  else
    let rule := p.ruleFor kind
    match if sensitive then rule.stricter p.sensitive else rule with
    | .allow => .pass
    | .ask => .defer
    | .deny => .block

end FirewallPolicy

theorem Rule.severity_le_stricter (r other : Rule) :
    r.severity ≤ (r.stricter other).severity ∧ other.severity ≤ (r.stricter other).severity := by
  rw [Rule.stricter]
  split <;> omega

theorem Rule.normalized_ne_ask (r : Rule) : r.normalized ≠ .ask := by
  cases r <;> decide

theorem FirewallPolicy.normalized_never_defers :
    p.normalized.decide kind sensitive dir ≠ .defer := by
  have hrule : p.normalized.ruleFor kind ≠ .ask := by
    cases kind <;> exact Rule.normalized_ne_ask _
  have hstrict : (p.normalized.ruleFor kind).stricter p.normalized.sensitive ≠ .ask := by
    rw [Rule.stricter]
    split
    · exact Rule.normalized_ne_ask _
    · exact hrule
  intro hd
  rw [FirewallPolicy.decide] at hd
  cases sensitive <;> cases hr : p.normalized.ruleFor kind <;> grind

end FluxSync
