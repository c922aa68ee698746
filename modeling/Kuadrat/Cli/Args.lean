import Kuadrat.Spec

/-!
# The arguments of the command line

`--route domain:port`, its port read as `u16::from_str` reads a number.
-/
namespace Kuadrat

/-- The errors of `u16::from_str`. -/
inductive IntError
  | empty
  | invalidDigit
  | posOverflow
  deriving DecidableEq

def IntError.display : IntError → Message
  | .empty => ["cannot parse integer from empty string"]
  | .invalidDigit => ["invalid digit found in string"]
  | .posOverflow => ["number too large to fit in target type"]

/-- One more digit: whether it is one is looked at before the overflow. -/
def u16Step (n : ℕ) (c : Char) : Except IntError ℕ :=
  if !c.isDigit then .error .invalidDigit
  else
    let n := 10*n + (c.toNat - '0'.toNat)
    if 65535 < n then .error .posOverflow else .ok n

def u16Digits (digits : Text) : Except IntError UInt16 :=
  (digits.foldlM u16Step 0).map UInt16.ofNat

/-- `str::parse::<u16>`: a sign may stand in front, and only a plus is one that fits. -/
def parseU16 (t : Text) : Except IntError UInt16 :=
  match t with
  | [] => .error .empty
  | ['+'] | ['-'] => .error .invalidDigit
  | '+'::digits => u16Digits digits
  | digits => u16Digits digits

/-- Parse `--route domain:port`, split at its last colon. -/
def parseRoute (s : Text) : Except Message Route := do
  match s.rsplitOnce ':' with
  | none => bail ["--route must be domain:port"]
  | some (domain,port) =>
    reject domain.isEmpty ["--route must be domain:port; the domain in ",.debug s," is empty"]
    reject (domain.contains '/') ["--route takes a bare domain, not a URL: ",.debug domain]
    let port ← (parseU16 port).mapError fun e =>
      Message.context ["--route port must be a number 1-65535, got ",.debug port] e.display
    reject (port == 0) ["--route port must be 1-65535, got 0"]
    return ⟨domain,port⟩

/-- A route from the command line has a bare, non-empty domain and a port to serve on. -/
theorem parseRoute_ok {s : Text} {route : Route} (h : parseRoute s = .ok route) :
    route.domain ≠ [] ∧ '/' ∉ route.domain ∧ route.port ≠ 0 := by
  unfold parseRoute at h
  split at h
  · exact nomatch h
  rename_i domain port _
  rw [seq_eq_ok,seq_eq_ok] at h
  obtain ⟨hempty,hbare,h⟩ := h
  cases hport : parseU16 port with
  | error e => simp [hport,Except.mapError,bind,Except.bind] at h
  | ok n =>
    simp only [hport,Except.mapError,bind,Except.bind] at h
    cases hn : reject (n == 0) ["--route port must be 1-65535, got 0"] with
    | error e => simp [hn] at h
    | ok u =>
      simp only [hn,pure,Except.pure,Except.ok.injEq] at h
      subst h
      have hzero : (n == 0) = false := reject_eq_ok.mp hn
      exact ⟨by simpa using hempty,by simpa using hbare,by simpa using hzero⟩

end Kuadrat
