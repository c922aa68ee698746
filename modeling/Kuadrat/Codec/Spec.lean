import Kuadrat.Codec.Text
import Kuadrat.Deploy.Driver

/-!
# The JSON text of a spec

The compact JSON that `serde_json` writes for a spec, its fields in declaration
order, and a reader of that text: a concrete `SpecCodec`.
-/
namespace Kuadrat

namespace Codec

/-- A codec of a type whose values are carried by some values of another one. -/
def emap {α β : Type} (c : Codec α) (f : α → Option β) (g : β → α) (h : ∀ b, f (g b) = some b) :
    Codec β where
  enc b := c.enc (g b)
  dec input := (c.dec input).bind fun r => (f r.1).map fun b => (b,r.2)
  dec_enc b rest := by simp [c.dec_enc,h]

def texts : Codec (List Text) := list str fun _ => ⟨'"',_,rfl,by decide⟩

def optText : Codec (Option Text) := option str fun _ => ⟨'"',_,rfl,by decide⟩

def optTexts : Codec (Option (List Text)) := option texts fun _ => ⟨'[',_,rfl,by decide⟩

def envEntry : Codec (Text × Text) :=
  ((lit "[".toList).seq ((str.seq ((lit ",".toList).seq str)).seq (lit "]".toList))).imap
    (fun p => (p.2.1.1,p.2.1.2.2)) (fun e => ((),(e.1,(),e.2),())) fun _ => rfl

def env : Codec (List (Text × Text)) := list envEntry fun _ => ⟨'[',_,rfl,by decide⟩

def RestartPolicy.variant : RestartPolicy → Text
  | .always => "Always"
  | .onFailure => "OnFailure"
  | .no => "No"

def restartPolicy : Codec RestartPolicy :=
  str.emap (fun t => [.always,.onFailure,.no].find? fun p => RestartPolicy.variant p = t)
    RestartPolicy.variant fun p => by cases p <;> decide +kernel

def route : Codec Route :=
  ((lit "\x7b\"domain\":".toList).seq (str.seq ((lit ",\"port\":".toList).seq
    (natThen '}' rfl)))).emap
    (fun p => if p.2.2.2 < 65536 then some ⟨p.2.1,UInt16.ofNat p.2.2.2⟩ else none)
    (fun r => ((),r.domain,(),r.port.toNat)) fun r => by
      simp only [r.port.toNat_lt,if_true,UInt16.ofNat_toNat]

def optRoute : Codec (Option Route) := option route fun _ => ⟨'\x7b',_,rfl,by decide⟩

def task : Codec ScheduledTask :=
  ((lit "\x7b\"name\":".toList).seq (str.seq ((lit ",\"schedule\":".toList).seq (str.seq
    ((lit ",\"command\":".toList).seq (texts.seq (lit "\x7d".toList))))))).imap
    (fun p => ⟨p.2.1,p.2.2.2.1,p.2.2.2.2.2.1⟩)
    (fun t => ((),t.name,(),t.schedule,(),t.command,())) fun _ => rfl

def tasks : Codec (List ScheduledTask) := list task fun _ => ⟨'\x7b',_,rfl,by decide⟩

/-- One field after another: its key, its value. -/
def field {α β : Type} (key : String) (c : Codec α) (next : Codec β) : Codec (α × β) :=
  ((lit key.toList).seq (c.seq next)).imap (fun p => p.2) (fun q => ((),q)) fun _ => rfl

def spec : Codec WorkloadSpec :=
  (field "\x7b\"name\":" str <| field ",\"image\":" str <| field ",\"command\":" optTexts <|
    field ",\"env\":" env <| field ",\"ports\":" texts <| field ",\"volumes\":" texts <|
    field ",\"secrets\":" texts <| field ",\"memory_max\":" optText <|
    field ",\"health_cmd\":" optText <| field ",\"restart_policy\":" restartPolicy <|
    field ",\"route\":" optRoute <| field ",\"tasks\":" tasks <| lit "\x7d".toList).imap
    (fun (name,image,command,env,ports,volumes,secrets,memoryMax,healthCmd,restartPolicy,route,
      tasks,_) =>
      { name,image,command,env,ports,volumes,secrets,memoryMax,healthCmd,restartPolicy,route,
        tasks })
    (fun s => (s.name,s.image,s.command,s.env,s.ports,s.volumes,s.secrets,s.memoryMax,
      s.healthCmd,s.restartPolicy,s.route,s.tasks,())) fun _ => rfl

end Codec

/-- Specs as `serde_json` writes them, and read back from that text. -/
def serde : SpecCodec where
  toText := Codec.spec.enc
  ofText t := match Codec.spec.dec t with
    | some (spec,[]) => .ok spec
    | _ => .error ["expected value"]
  ofText_toText spec := by
    have h := Codec.spec.dec_enc spec []
    rw [List.append_nil] at h
    rw [h]

def sampleContext : Ctx := ⟨.default,serde⟩

end Kuadrat
