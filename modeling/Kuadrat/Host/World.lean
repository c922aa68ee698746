import Kuadrat.Host.FileTree
import Kuadrat.Host.Effect

/-!
# The host as one process sees it

An operation either fails, and then changes nothing, or does what it says. The
answer comes from outside: it is the environment's choice whether an operation
fails, what a command prints, and in which order a directory is listed.
-/
namespace Kuadrat

open Effect

/-- What systemd knows of each service: the definition it has loaded and the one running. -/
structure Systemd where
  loaded : Text → Option Text
  running : Text → Option Text

/-- The definition file behind a service, as Quadlet's generator finds it. -/
def definitionPath (paths : Paths) (unit : Text) : Path := paths.quadletDir.join (unit ++ ".container")

def Systemd.execute (paths : Paths) (fs : FileTree) (s : Systemd) : Command → Systemd
  | .daemonReload => { s with loaded := fun unit => fs.contents (definitionPath paths unit) }
  | .start unit =>
    if (s.running unit).isSome then s
    else { s with running := Function.update s.running unit (s.loaded unit) }
  | .restart unit => { s with running := Function.update s.running unit (s.loaded unit) }
  | .stop unit => { s with running := Function.update s.running unit none }
  | _ => s

/-- The state of one host; `issued` and `published` only record what was done. -/
structure World where
  fs : FileTree
  store : Store
  systemd : Systemd
  published : List StoredEvent := []
  issued : List Eff := []

inductive Answer
  | fail (why : Message)
  | done
  | entries (names : List Text)
  | output (out : CommandOutput)
  | took (result : Except Message CommandOutput) (duration : Duration)
  | stalled

/-- A command exits with zero, and has printed `stdout`. -/
def succeeds (stdout : Text) : Answer := .output ⟨0,stdout,""⟩

namespace World

/-- A host on which nothing was ever deployed. -/
def initial (fs : FileTree) : World where
  fs := fs
  store := .empty
  systemd := ⟨fun _ => none,fun _ => none⟩

def answer (paths : Paths) (w : World) : (e : Eff) → Answer → Option (e.Resp × World)
  | .present p, .done => some (.ok (w.fs.present p),w)
  | .present _, .fail why => some (.error why,w)
  | .readToString p, .done => (w.fs.contents p).map fun t => (.ok t,w)
  | .readToString _, .fail why => some (.error why,w)
  | .write p t, .done => (w.fs.write p t).map fun fs => (.ok (),{ w with fs := fs })
  | .write _ _, .fail why => some (.error why,w)
  | .createDirAll p, .done => (w.fs.createDirAll p).map fun fs => (.ok (),{ w with fs := fs })
  | .createDirAll _, .fail why => some (.error why,w)
  | .removeFile p, .done => (w.fs.removeFile p).map fun fs => (.ok (),{ w with fs := fs })
  | .removeFile _, .fail why => some (.error why,w)
  | .readDir p, .entries names =>
    if p ∈ w.fs.dirs ∧ (names.map p.join).Perm (w.fs.entries p) then some (.ok names,w) else none
  | .readDir _, .fail why => some (.error why,w)
  | .run c, .output out =>
    some (.ok out,if out.success then { w with systemd := w.systemd.execute paths w.fs c } else w)
  | .run _, .fail why => some (.error why,w)
  | .timed _, .took result duration => some (.finished result duration,w)
  | .timed _, .stalled => some (.stalled,w)
  | .store o, .done => some ((w.store.call o).1,{ w with store := (w.store.call o).2 })
  | .store _, .fail why => some (.error why,w)
  | .emit event, .done => some ((),{ w with published := w.published ++ [event] })
  | _, _ => none

def record (e : Eff) (w : World) : World := { w with issued := w.issued ++ [e] }

@[simp] theorem record_fs (e : Eff) (w : World) : (w.record e).fs = w.fs := rfl
@[simp] theorem record_store (e : Eff) (w : World) : (w.record e).store = w.store := rfl
@[simp] theorem record_systemd (e : Eff) (w : World) : (w.record e).systemd = w.systemd := rfl
@[simp] theorem record_issued (e : Eff) (w : World) : (w.record e).issued = w.issued ++ [e] := rfl

def machine (paths : Paths) : Machine Eff Eff.Resp Answer World where
  step w e x := (w.answer paths e x).map fun r => (r.1,r.2.record e)

end World

/-- The environment answers within `ok`; `C` is demanded whenever an operation is issued. -/
def hostSpec (paths : Paths) (ok : Eff → Answer → Prop) (C : World → Prop) :
    Spec Eff Eff.Resp World :=
  (World.machine paths).spec ok C

section Rules
variable {paths : Paths} {ok : Eff → Answer → Prop} {C : World → Prop} {w : World}

theorem wp_issue {e : Eff} {Q : e.Resp → World → Prop} (hC : C w)
    (h : ∀ x r w', ok e x → w.answer paths e x = some (r,w') → Q r (w'.record e)) :
    wp (hostSpec paths ok C) (.perform e) Q w := by
  refine ⟨hC,fun r w' hr => ?_⟩
  obtain ⟨x,hx,hs⟩ := hr
  simp only [World.machine,Option.map_eq_some_iff,Prod.mk.injEq] at hs
  obtain ⟨⟨r',w''⟩,ha,rfl,rfl⟩ := hs
  exact h x r' w'' hx ha

theorem wp_present {p : Path} {Q : Except Message Bool → World → Prop} (hC : C w)
    (hok : ok (.present p) .done → Q (.ok (w.fs.present p)) (w.record (.present p)))
    (herr : ∀ why, ok (.present p) (.fail why) → Q (.error why) (w.record (.present p))) :
    wp (hostSpec paths ok C) (Run.present p).run Q w := by
  refine wp_issue hC fun x r w' hx h => ?_
  cases x <;> simp only [World.answer,Option.some.injEq,Prod.mk.injEq,reduceCtorEq] at h
  · obtain ⟨rfl,rfl⟩ := h
    exact herr _ hx
  · obtain ⟨rfl,rfl⟩ := h
    exact hok hx

theorem wp_readToString {p : Path} {Q : Except Message Text → World → Prop} (hC : C w)
    (hok : ∀ t, ok (.readToString p) .done → w.fs.contents p = some t →
      Q (.ok t) (w.record (.readToString p)))
    (herr : ∀ why, ok (.readToString p) (.fail why) →
      Q (.error why) (w.record (.readToString p))) :
    wp (hostSpec paths ok C) (Run.readToString p).run Q w := by
  refine wp_issue hC fun x r w' hx h => ?_
  cases x <;> simp only [World.answer,Option.some.injEq,Prod.mk.injEq,Option.map_eq_some_iff,
    reduceCtorEq] at h
  · obtain ⟨rfl,rfl⟩ := h
    exact herr _ hx
  · obtain ⟨t,ht,rfl,rfl⟩ := h
    exact hok t hx ht

theorem wp_write {p : Path} {t : Text} {Q : Except Message Unit → World → Prop} (hC : C w)
    (hok : ∀ fs, ok (.write p t) .done → w.fs.write p t = some fs →
      Q (.ok ()) ({ w with fs := fs }.record (.write p t)))
    (herr : ∀ why, ok (.write p t) (.fail why) → Q (.error why) (w.record (.write p t))) :
    wp (hostSpec paths ok C) (Run.write p t).run Q w := by
  refine wp_issue hC fun x r w' hx h => ?_
  cases x <;> simp only [World.answer,Option.some.injEq,Prod.mk.injEq,Option.map_eq_some_iff,
    reduceCtorEq] at h
  · obtain ⟨rfl,rfl⟩ := h
    exact herr _ hx
  · obtain ⟨fs,hfs,rfl,rfl⟩ := h
    exact hok fs hx hfs

theorem wp_createDirAll {p : Path} {Q : Except Message Unit → World → Prop} (hC : C w)
    (hok : ∀ fs, ok (.createDirAll p) .done → w.fs.createDirAll p = some fs →
      Q (.ok ()) ({ w with fs := fs }.record (.createDirAll p)))
    (herr : ∀ why, ok (.createDirAll p) (.fail why) →
      Q (.error why) (w.record (.createDirAll p))) :
    wp (hostSpec paths ok C) (Run.createDirAll p).run Q w := by
  refine wp_issue hC fun x r w' hx h => ?_
  cases x <;> simp only [World.answer,Option.some.injEq,Prod.mk.injEq,Option.map_eq_some_iff,
    reduceCtorEq] at h
  · obtain ⟨rfl,rfl⟩ := h
    exact herr _ hx
  · obtain ⟨fs,hfs,rfl,rfl⟩ := h
    exact hok fs hx hfs

theorem wp_removeFile {p : Path} {Q : Except Message Unit → World → Prop} (hC : C w)
    (hok : ∀ fs, ok (.removeFile p) .done → w.fs.removeFile p = some fs →
      Q (.ok ()) ({ w with fs := fs }.record (.removeFile p)))
    (herr : ∀ why, ok (.removeFile p) (.fail why) → Q (.error why) (w.record (.removeFile p))) :
    wp (hostSpec paths ok C) (Run.removeFile p).run Q w := by
  refine wp_issue hC fun x r w' hx h => ?_
  cases x <;> simp only [World.answer,Option.some.injEq,Prod.mk.injEq,Option.map_eq_some_iff,
    reduceCtorEq] at h
  · obtain ⟨rfl,rfl⟩ := h
    exact herr _ hx
  · obtain ⟨fs,hfs,rfl,rfl⟩ := h
    exact hok fs hx hfs

theorem wp_readDir {p : Path} {Q : Except Message (List Path) → World → Prop} (hC : C w)
    (hok : ∀ names, ok (.readDir p) (.entries names) → p ∈ w.fs.dirs →
      (names.map p.join).Perm (w.fs.entries p) →
      Q (.ok (names.map p.join)) (w.record (.readDir p)))
    (herr : ∀ why, ok (.readDir p) (.fail why) → Q (.error why) (w.record (.readDir p))) :
    wp (hostSpec paths ok C) (Run.readDir p).run Q w := by
  unfold Run.readDir
  rw [Prog.run_bind,wp_bind]
  refine wp_issue hC fun x r w' hx h => ?_
  cases x <;> simp only [World.answer,Option.some.injEq,Prod.mk.injEq,Option.ite_none_right_eq_some,
    reduceCtorEq] at h
  · obtain ⟨rfl,rfl⟩ := h
    exact herr _ hx
  · obtain ⟨⟨hd,hl⟩,rfl,rfl⟩ := h
    exact hok _ hx hd hl

theorem wp_exec {c : Command} {Q : Except Message CommandOutput → World → Prop} (hC : C w)
    (hok : ∀ out, ok (.run c) (.output out) → Q (.ok out)
      ((if out.success then { w with systemd := w.systemd.execute paths w.fs c } else w).record
        (.run c)))
    (herr : ∀ why, ok (.run c) (.fail why) → Q (.error why) (w.record (.run c))) :
    wp (hostSpec paths ok C) (Run.exec c).run Q w := by
  refine wp_issue hC fun x r w' hx h => ?_
  cases x <;> simp only [World.answer,Option.some.injEq,Prod.mk.injEq,reduceCtorEq] at h
  · obtain ⟨rfl,rfl⟩ := h
    exact herr _ hx
  · obtain ⟨rfl,rfl⟩ := h
    exact hok _ hx

theorem wp_store {o : StoreOp} {Q : Except Message o.Reply → World → Prop} (hC : C w)
    (hok : ok (.store o) .done →
      Q (w.store.call o).1 ({ w with store := (w.store.call o).2 }.record (.store o)))
    (herr : ∀ why, ok (.store o) (.fail why) → Q (.error why) (w.record (.store o))) :
    wp (hostSpec paths ok C) (Run.store o).run Q w := by
  refine wp_issue hC fun x r w' hx h => ?_
  cases x <;> simp only [World.answer,Option.some.injEq,Prod.mk.injEq,reduceCtorEq] at h
  · obtain ⟨rfl,rfl⟩ := h
    exact herr _ hx
  · obtain ⟨rfl,rfl⟩ := h
    exact hok hx

end Rules

/-- An invariant that every operation the program can issue keeps. -/
theorem wp_invariant {paths : Paths} {ok : Eff → Answer → Prop} {C : World → Prop} {A : Eff → Prop}
    {α : Type} {p : Prog Eff Eff.Resp α} (I : World → Prop) {w : World} (hp : All A p) (hI : I w)
    (hC : ∀ w, I w → C w)
    (hstep : ∀ w e x r w', A e → ok e x → I w → w.answer paths e x = some (r,w') →
      I (w'.record e)) : wp (hostSpec paths ok C) p (fun _ => I) w := by
  refine wp_of_all I hp hI (fun w e _ h => hC w h) fun w e r w' hA h hr => ?_
  obtain ⟨x,hx,hs⟩ := hr
  simp only [World.machine,Option.map_eq_some_iff,Prod.mk.injEq] at hs
  obtain ⟨⟨r',w''⟩,ha,rfl,rfl⟩ := hs
  exact hstep w e x r' w'' hA hx h ha

/-- Everything an operation can do to the world. -/
theorem answer_cases {paths : Paths} {w w' : World} {e : Eff} {x : Answer} {r : e.Resp}
    (h : w.answer paths e x = some (r,w')) :
    w' = w ∨
    (∃ p t fs, e = .write p t ∧ w.fs.write p t = some fs ∧ w' = { w with fs := fs }) ∨
    (∃ p fs, e = .createDirAll p ∧ w.fs.createDirAll p = some fs ∧ w' = { w with fs := fs }) ∨
    (∃ p fs, e = .removeFile p ∧ w.fs.removeFile p = some fs ∧ w' = { w with fs := fs }) ∨
    (∃ c, e = .run c ∧ w' = { w with systemd := w.systemd.execute paths w.fs c }) ∨
    (∃ o, e = .store o ∧ w' = { w with store := (w.store.call o).2 }) ∨
    ∃ event, e = .emit event ∧ w' = { w with published := w.published ++ [event] } := by
  cases e <;> cases x <;> simp only [World.answer,Option.some.injEq,Prod.mk.injEq,
    Option.map_eq_some_iff,Option.ite_none_right_eq_some,reduceCtorEq] at h
  case write.done p t =>
    obtain ⟨fs,hfs,-,rfl⟩ := h
    exact .inr (.inl ⟨p,t,fs,rfl,hfs,rfl⟩)
  case createDirAll.done p =>
    obtain ⟨fs,hfs,-,rfl⟩ := h
    exact .inr (.inr (.inl ⟨p,fs,rfl,hfs,rfl⟩))
  case removeFile.done p =>
    obtain ⟨fs,hfs,-,rfl⟩ := h
    exact .inr (.inr (.inr (.inl ⟨p,fs,rfl,hfs,rfl⟩)))
  case run.output c out =>
    obtain ⟨-,rfl⟩ := h
    split
    · exact .inr (.inr (.inr (.inr (.inl ⟨c,rfl,rfl⟩))))
    · exact .inl rfl
  case store.done o =>
    obtain ⟨-,rfl⟩ := h
    exact .inr (.inr (.inr (.inr (.inr (.inl ⟨o,rfl,rfl⟩)))))
  case emit.done event =>
    obtain ⟨-,rfl⟩ := h
    exact .inr (.inr (.inr (.inr (.inr (.inr ⟨event,rfl,rfl⟩)))))
  case readToString.done =>
    obtain ⟨t,-,-,rfl⟩ := h
    exact .inl rfl
  case readDir.entries =>
    obtain ⟨-,-,rfl⟩ := h
    exact .inl rfl
  all_goals
    obtain ⟨-,rfl⟩ := h
    exact .inl rfl

section Answers
variable {paths : Paths} {w w' : World} {e : Eff} {x : Answer} {r : e.Resp}
  (h : w.answer paths e x = some (r,w'))
include h

/-- The files change by one write, one removal, or not at all. -/
theorem contents_of_answer : w'.fs.contents = w.fs.contents ∨
    (∃ p t, e = .write p t ∧ w'.fs.contents = Function.update w.fs.contents p (some t)) ∨
    (∃ p, e = .removeFile p ∧ w'.fs.contents = Function.update w.fs.contents p none) := by
  rcases answer_cases h with rfl | ⟨p,t,fs,rfl,hfs,rfl⟩ | ⟨p,fs,rfl,hfs,rfl⟩ |
    ⟨p,fs,rfl,hfs,rfl⟩ | ⟨c,rfl,rfl⟩ | ⟨o,rfl,rfl⟩ | ⟨event,rfl,rfl⟩
  · exact .inl rfl
  · exact .inr (.inl ⟨p,t,rfl,FileTree.contents_of_write hfs⟩)
  · exact .inl (FileTree.contents_of_createDirAll hfs)
  · exact .inr (.inr ⟨p,rfl,FileTree.contents_of_removeFile hfs⟩)
  all_goals exact .inl rfl

/-- Only a call of the store changes the store. -/
theorem store_of_answer :
    w'.store = w.store ∨ ∃ o, e = .store o ∧ w'.store = (w.store.call o).2 := by
  rcases answer_cases h with rfl | ⟨p,t,fs,rfl,-,rfl⟩ | ⟨p,fs,rfl,-,rfl⟩ |
    ⟨p,fs,rfl,-,rfl⟩ | ⟨c,rfl,rfl⟩ | ⟨o,rfl,rfl⟩ | ⟨event,rfl,rfl⟩
  case inr.inr.inr.inr.inr.inl => exact .inr ⟨o,rfl,rfl⟩
  all_goals exact .inl rfl

/-- Only a successful command changes systemd. -/
theorem systemd_of_answer : w'.systemd = w.systemd ∨
    ∃ c, e = .run c ∧ w'.systemd = w.systemd.execute paths w.fs c := by
  rcases answer_cases h with rfl | ⟨p,t,fs,rfl,-,rfl⟩ | ⟨p,fs,rfl,-,rfl⟩ |
    ⟨p,fs,rfl,-,rfl⟩ | ⟨c,rfl,rfl⟩ | ⟨o,rfl,rfl⟩ | ⟨event,rfl,rfl⟩
  case inr.inr.inr.inr.inl => exact .inr ⟨c,rfl,rfl⟩
  all_goals exact .inl rfl

theorem issued_of_answer : w'.issued = w.issued := by
  rcases answer_cases h with rfl | ⟨p,t,fs,rfl,-,rfl⟩ | ⟨p,fs,rfl,-,rfl⟩ |
    ⟨p,fs,rfl,-,rfl⟩ | ⟨c,rfl,rfl⟩ | ⟨o,rfl,rfl⟩ | ⟨event,rfl,rfl⟩ <;> rfl

end Answers

/-- The operation writes or deletes the file at `p`. -/
def Eff.Touches (p : Path) : Eff → Prop
  | .write q _ | .removeFile q => q = p
  | _ => False

section Frames
variable {paths : Paths} {ok : Eff → Answer → Prop} {w : World} {α : Type}
  {p : Prog Eff Eff.Resp α}

/-- A program that touches no file of `P` leaves their contents alone. -/
theorem wp_contents_frame {P : Path → Prop} (h : All (fun e => ∀ q, P q → ¬e.Touches q) p) :
    wp (hostSpec paths ok fun _ => True) p
      (fun _ w' => ∀ q, P q → w'.fs.contents q = w.fs.contents q) w := by
  refine wp_invariant (fun w' => ∀ q, P q → w'.fs.contents q = w.fs.contents q) h
    (fun _ _ => rfl) (fun _ _ => trivial) fun w' e x r w'' hA _ hI ha q hq => ?_
  rw [World.record_fs,← hI q hq]
  rcases contents_of_answer ha with h | ⟨q',t,rfl,h⟩ | ⟨q',rfl,h⟩
  · rw [h]
  · rw [h,Function.update_of_ne]
    rintro rfl
    exact hA q hq rfl
  · rw [h,Function.update_of_ne]
    rintro rfl
    exact hA q hq rfl

/-- The commands that change what systemd has loaded or runs. -/
def Command.Manages : Command → Prop
  | .daemonReload | .start _ | .restart _ | .stop _ => True
  | _ => False

theorem wp_systemd_frame (h : All (fun e => ∀ c, e = .run c → ¬c.Manages) p) :
    wp (hostSpec paths ok fun _ => True) p (fun _ w' => w'.systemd = w.systemd) w := by
  refine wp_invariant (fun w' => w'.systemd = w.systemd) h rfl (fun _ _ => trivial)
    fun w' e x r w'' hA _ hI ha => ?_
  rcases systemd_of_answer ha with h | ⟨c,rfl,h⟩
  · rw [World.record_systemd,h,hI]
  · have hc := hA c rfl
    rw [World.record_systemd,h,hI]
    cases c <;> first | rfl | exact absurd trivial hc

end Frames
end Kuadrat
