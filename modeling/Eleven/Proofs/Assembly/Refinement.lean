import Eleven.Proofs.Assembly.Matching

/-! Linking late comes to the same as assembling with all symbols known. -/
namespace Eleven.Assembly

open Eleven.Files (FileSystem)
open Eleven.Source (Header Operation)
open Eager (State eager)

section Simulation

variable {env : Env} {α β : Type}

/-- Where what a run asks for holds, the eager assembler repeats it, with the same numbers. -/
def Simulates (env : Env) {α : Type} (x : Attempt (Session × List Nat) α)
    (y : Attempt (State × List Nat) α) : Prop :=
  ∀ s ns a s' ns', s.symbols.Quiet → x.run (s, ns) = (.ok a, s', ns') →
    s'.symbols.Quiet ∧ (Holds env s' → Holds env s) ∧
      ∀ e, Matches env s e → Holds env s' →
        ∃ e', y.run (e, ns) = (.ok a, e', ns') ∧ Matches env s' e'

theorem Simulates.lift (r : Except Failure α) : Simulates env (liftM r) (liftM r) := by
  intro s ns a s' ns' hq h
  cases h
  exact ⟨hq, id, fun e hm _ => ⟨e, rfl, hm⟩⟩

theorem Simulates.bind {x : Attempt (Session × List Nat) α} {y : Attempt (State × List Nat) α}
    {f : α → Attempt (Session × List Nat) β} {g : α → Attempt (State × List Nat) β}
    (hxy : Simulates env x y) (hfg : ∀ a, Simulates env (f a) (g a)) :
    Simulates env (x >>= f) (y >>= g) := by
  intro s ns b s'' ns'' hq h
  obtain ⟨a, ⟨s', ns'⟩, hx, hf⟩ := Attempt.run_bind_eq_ok.mp h
  obtain ⟨hq', hback, hstep⟩ := hxy s ns a s' ns' hq hx
  obtain ⟨hq'', hback', hstep'⟩ := hfg a s' ns' b s'' ns'' hq' hf
  refine ⟨hq'', fun hh => hback (hback' hh), fun e hm hh => ?_⟩
  obtain ⟨e', hy, hm'⟩ := hstep e hm (hback' hh)
  obtain ⟨e'', hg, hm''⟩ := hstep' e' hm' hh
  exact ⟨e'', (Attempt.run_bind_ok hy g).trans hg, hm''⟩

theorem run_besideNumbers {σ : Type} {act : Attempt σ α} {s s' : σ} {ns ns' : List Nat} {a : α} :
    (besideNumbers act).run (s, ns) = (.ok a, s', ns') ↔ act.run s = (.ok a, s') ∧ ns = ns' := by
  rw [besideNumbers, Attempt.onPart, Attempt.run_of]
  rcases act.run s with ⟨r, m⟩
  simp only [Prod.mk.injEq, and_assoc]

theorem Follows.simulates {f : Session → Except Failure Session}
    {g : State → Except Failure State} (h : Follows env f g) :
    Simulates env (besideNumbers (Attempt.update f)) (besideNumbers (Attempt.update g)) := by
  intro s ns a s' ns' hq hrun
  obtain ⟨hupdate, rfl⟩ := run_besideNumbers.mp hrun
  obtain ⟨hq', hback, hstep⟩ := h s s' hq (Attempt.run_update_eq_ok.mp hupdate)
  refine ⟨hq', hback, fun e hm hh => ?_⟩
  obtain ⟨e', he', hm'⟩ := hstep e hm hh
  exact ⟨e', run_besideNumbers.mpr ⟨Attempt.run_update_eq_ok.mpr he', rfl⟩, hm'⟩

/-- A count that was found from the symbols known so far is found from all of them. -/
theorem repeatCount_eq_ok {s s' : Session} {pos : Position} {v : Lazy} {n : Nat}
    (hq : s.symbols.Quiet) (h : (repeatCount pos v).run s = (.ok n, s')) :
    ∃ t, s' = s.setSymbols t ∧ t.Quiet ∧ s.symbols.Grows t ∧
      (t.AgreesWith env → Eager.rounds env v = .ok n) := by
  have hread : SymbolTable.Reads (v.resolveInt SymbolTable.lookup) (v.resolveInt Env.look) :=
    (SymbolTable.reads_eval v).bind fun d => SymbolTable.Reads.lift d.expectInt
  obtain ⟨r, t, hrun, hqt, hg, hok⟩ := hread.2 s.symbols hq
  rw [repeatCount, Attempt.run_mapFailure, Prod.mk.injEq, mapError_eq_ok] at h
  obtain ⟨m, s₁, hres, hcount⟩ := Attempt.run_bind_eq_ok.mp (Prod.ext h.1 h.2)
  rw [run_onSymbols hrun, Prod.mk.injEq] at hres
  obtain ⟨rfl, rfl⟩ := hres
  by_cases hneg : m < 0
  · simp [hneg] at hcount
  · simp only [hneg, if_false, Attempt.run_pure, Prod.mk.injEq, Except.ok.injEq] at hcount
    refine ⟨t, hcount.2.symm, hqt, hg, fun hagrees => ?_⟩
    have hvalue := hok m rfl env hagrees
    rw [Lazy.outcome_resolveInt] at hvalue
    rw [Eager.rounds, hvalue, ok_bind, if_neg hneg, hcount.1]

theorem simulates_count (fs : FileSystem) (pos : Position) (v : Lazy) :
    Simulates env ((deferred fs).recording.count pos v)
      ((eager env fs false).recording.count pos v) := by
  intro s ns n s' ns' hq h
  obtain ⟨m, ⟨s₁, ns₁⟩, hcount, h⟩ := Attempt.run_bind_eq_ok.mp h
  cases h
  obtain ⟨hfound, rfl⟩ := run_besideNumbers.mp hcount
  obtain ⟨t, rfl, hqt, hg, hrounds⟩ := repeatCount_eq_ok hq hfound
  have hbindings : t.binding? = s.symbols.binding? :=
    SymbolTable.binding?_eq_of_definitions hg.definitions
  refine ⟨hqt, fun hh => ⟨hh.stores, hh.results.of_grows hg, ?_⟩, fun e hm hh => ⟨e, ?_, ?_⟩⟩
  · exact fun name w hw => hh.definitions name w (hbindings ▸ hw)
  · have hlift : (besideNumbers ((eager env fs false).count pos v)).run (e, ns) =
        (.ok n, e, ns) :=
      run_besideNumbers.mpr ⟨by rw [← hrounds hh.results]; rfl, rfl⟩
    exact Attempt.run_bind_ok hlift _
  · exact ⟨hm.counter, hm.memory, hm.koi8r, hm.files, hm.labels, hm.equates⟩

theorem simulates_openFiles (fs : FileSystem) :
    Simulates env (deferred fs).recording.openFiles (eager env fs false).recording.openFiles := by
  intro s ns files s' ns' hq h
  cases h
  refine ⟨hq, id, fun e hm _ => ⟨e, ?_, hm⟩⟩
  rw [hm.files]
  rfl

theorem simulates_inFile (fs : FileSystem) (file : String)
    {x : Attempt (Session × List Nat) Unit} {y : Attempt (State × List Nat) Unit}
    (h : Simulates env x y) :
    Simulates env ((deferred fs).recording.inFile file x)
      ((eager env fs false).recording.inFile file y) := by
  intro s ns a s' ns' hq hrun
  rcases hx : x.run (enterFile file s, ns) with ⟨r, s₁, ns₁⟩
  rw [(deferred fs).run_inFile_recording hx] at hrun
  cases hrun
  obtain ⟨hq', hback, hstep⟩ := h (enterFile file s) ns a s₁ ns' hq hx
  -- entering and leaving files touches neither stores nor symbols
  refine ⟨hq', fun hh => ?_, fun e hm hh => ?_⟩
  · have hinner := hback ⟨hh.stores, hh.results, hh.definitions⟩
    exact ⟨hinner.stores, hinner.results, hinner.definitions⟩
  · obtain ⟨e', hy, hm'⟩ := hstep { e with files := file :: e.files }
      ⟨hm.counter, hm.memory, hm.koi8r, congrArg (file :: ·) hm.files, hm.labels, hm.equates⟩
      ⟨hh.stores, hh.results, hh.definitions⟩
    exact ⟨{ e' with files := e'.files.tail }, (eager env fs false).run_inFile_recording hy,
      hm'.counter, hm'.memory, hm'.koi8r, congrArg List.tail hm'.files, hm'.labels, hm'.equates⟩

theorem related_eager (fs : FileSystem) :
    Backend.Related (Simulates env) (deferred fs).recording (eager env fs false).recording where
  lift := Simulates.lift
  bind := Simulates.bind
  label pos name := (follows_label name pos).simulates
  operation h o := (follows_apply fs h o).simulates
  count := simulates_count fs
  openFiles := simulates_openFiles fs
  inFile file {_ _} := simulates_inFile fs file

end Simulation

section Strict

variable {env : Env} {e e' e'' : State} {pos : Position}

/-- Nothing but memory and the location counter differs. -/
def SameLogs (e e' : State) : Prop := ∃ pc memory, e' = { e with pc := pc, memory := memory }

theorem SameLogs.trans (h : SameLogs e e') (h' : SameLogs e' e'') : SameLogs e e'' := by
  obtain ⟨pc, memory, rfl⟩ := h
  obtain ⟨pc', memory', rfl⟩ := h'
  exact ⟨pc', memory', rfl⟩

theorem sameLogs_put {bytes : List Int64} (h : e.put pos bytes = .ok e') : SameLogs e e' := by
  obtain ⟨p, -, h⟩ := bind_eq_ok.mp h
  obtain ⟨memory, -, h⟩ := bind_eq_ok.mp h
  cases h
  exact ⟨_, memory, rfl⟩

theorem sameLogs_putByte {n : Int64} (h : e.putByte pos n = .ok e') : SameLogs e e' := by
  obtain ⟨b, -, h⟩ := bind_eq_ok.mp h
  exact sameLogs_put h

theorem sameLogs_putWord {n : Int64} (h : e.putWord pos n = .ok e') : SameLogs e e' := by
  obtain ⟨w, -, h⟩ := bind_eq_ok.mp h
  obtain ⟨mid, hlow, hhigh⟩ := bind_eq_ok.mp h
  exact (sameLogs_put hlow).trans (sameLogs_put hhigh)

theorem sameLogs_putEach {put : State → Int64 → Except Failure State}
    (hput : ∀ {e e' n}, put e n = .ok e' → SameLogs e e') {ns : List Int64}
    (h : e.putEach put ns = .ok e') : SameLogs e e' := by
  induction ns generalizing e with
  | nil =>
    cases h
    exact ⟨_, _, rfl⟩
  | cons n ns ih =>
    obtain ⟨mid, hn, hns⟩ := bind_eq_ok.mp h
    exact (hput hn).trans (ih hns)

theorem sameLogs_putWords {ns : List Int64} (h : e.putWords pos ns = .ok e') : SameLogs e e' :=
  sameLogs_putEach sameLogs_putWord h

theorem sameLogs_putText {text : String} {ending : List Int64}
    (h : e.putText pos text ending = .ok e') : SameLogs e e' := by
  dsimp only [State.putText] at h
  split at h
  · exact sameLogs_put h
  · cases h

theorem sameLogs_putFile {fs : FileSystem} {name : String} (h : e.putFile fs pos name = .ok e') :
    SameLogs e e' := by
  dsimp only [State.putFile] at h
  split at h
  · exact sameLogs_put h
  · cases h

theorem sameLogs_putZeros {n : Int64} (h : e.putZeros pos n = .ok e') : SameLogs e e' := by
  dsimp only [State.putZeros] at h
  split_ifs at h
  exact sameLogs_put h

theorem sameLogs_putPadding {n : Int64} (h : e.putPadding pos n = .ok e') : SameLogs e e' := by
  obtain ⟨k, -, h⟩ := bind_eq_ok.mp h
  obtain ⟨p, -, h⟩ := bind_eq_ok.mp h
  exact sameLogs_put h

theorem SameLogs.links (h : SameLogs e e') : e'.links = e.links := by
  obtain ⟨pc, memory, rfl⟩ := h
  rfl

/-- Only link directives are recorded as such. -/
theorem links_perform {fs : FileSystem} {h : Header} {o : Operation} (ho : ∀ v, o ≠ .link v)
    (hrun : Eager.perform env fs false h o e = .ok e') : e'.links = e.links := by
  cases o with
  | nothing => cases hrun; rfl
  | thisMachine => cases hrun; rfl
  | decimalNumbers => cases hrun; rfl
  | endOfSource => cases hrun; rfl
  | includeFile _ => cases hrun; rfl
  | makeArtifact _ => cases hrun; rfl
  | koi8r => cases hrun; rfl
  | otherMachine => cases hrun
  | link v => exact absurd rfl (ho v)
  | dialect name =>
    dsimp only [Eager.perform] at hrun
    split_ifs at hrun
    cases hrun
    rfl
  | instruction os =>
    dsimp only [Eager.perform, Eager.putInstruction] at hrun
    split at hrun
    · cases hrun
    · obtain ⟨p, -, hrun⟩ := bind_eq_ok.mp hrun
      obtain ⟨words, -, hrun⟩ := bind_eq_ok.mp hrun
      exact (sameLogs_putWords hrun).links
  | bytes vs =>
    obtain ⟨ns, -, hrun⟩ := bind_eq_ok.mp hrun
    exact (sameLogs_putEach sameLogs_putByte hrun).links
  | words vs =>
    obtain ⟨ns, -, hrun⟩ := bind_eq_ok.mp hrun
    exact (sameLogs_putWords hrun).links
  | reserveBytes v =>
    obtain ⟨n, -, hrun⟩ := bind_eq_ok.mp hrun
    exact (sameLogs_putZeros hrun).links
  | reserveWords v =>
    obtain ⟨n, -, hrun⟩ := bind_eq_ok.mp hrun
    exact (sameLogs_putZeros hrun).links
  | even => exact (sameLogs_putPadding hrun).links
  | align v =>
    obtain ⟨n, -, hrun⟩ := bind_eq_ok.mp hrun
    exact (sameLogs_putPadding hrun).links
  | ascii text => exact (sameLogs_putText hrun).links
  | asciz text => exact (sameLogs_putText hrun).links
  | insertFile name => exact (sameLogs_putFile hrun).links
  | equate name v =>
    obtain ⟨n, -, hrun⟩ := bind_eq_ok.mp hrun
    cases hrun
    rfl

/-- Runs that refuse nothing more if link directives are evaluated at once, as long as each of their
addresses has a value. -/
def Keeps {α : Type} (x y : Attempt (State × List Nat) α) : Prop :=
  ∀ r a r', x.run r = (.ok a, r') →
    (∃ new, r'.1.links = new ++ r.1.links) ∧
      ((∀ l ∈ r'.1.links, ∃ n, l = .ok n) → y.run r = (.ok a, r'))

theorem Keeps.bind {α β : Type} {x y : Attempt (State × List Nat) α}
    {f g : α → Attempt (State × List Nat) β} (hxy : Keeps x y) (hfg : ∀ a, Keeps (f a) (g a)) :
    Keeps (x >>= f) (y >>= g) := by
  intro r b r'' h
  obtain ⟨a, r', hx, hf⟩ := Attempt.run_bind_eq_ok.mp h
  obtain ⟨⟨new, hnew⟩, hy⟩ := hxy r a r' hx
  obtain ⟨⟨new', hnew'⟩, hg⟩ := hfg a r' b r'' hf
  refine ⟨⟨new' ++ new, by rw [hnew', hnew, List.append_assoc]⟩, fun hall => ?_⟩
  have hall' : ∀ l ∈ r'.1.links, ∃ n, l = .ok n :=
    fun l hl => hall l (hnew' ▸ List.mem_append_right new' hl)
  rw [Attempt.run_bind_ok (hy hall'), hg hall]

theorem Keeps.of_links {α : Type} {x : Attempt (State × List Nat) α}
    (h : ∀ r a r', x.run r = (.ok a, r') → r'.1.links = r.1.links) : Keeps x x :=
  fun r a r' hrun => ⟨⟨[], h r a r' hrun⟩, fun _ => hrun⟩

theorem keeps_operation (fs : FileSystem) (h : Header) (o : Operation) :
    Keeps ((eager env fs false).recording.operation h o)
      ((eager env fs true).recording.operation h o) := by
  rintro ⟨e, ns⟩ ⟨⟩ ⟨e', ns'⟩ hrun
  obtain ⟨hupdate, rfl⟩ := run_besideNumbers.mp hrun
  have hperform := Attempt.run_update_eq_ok.mp hupdate
  have hagain : Eager.perform env fs true h o e = .ok e' →
      ((eager env fs true).recording.operation h o).run (e, ns) = (.ok (), e', ns) :=
    fun hp => run_besideNumbers.mpr ⟨Attempt.run_update_eq_ok.mpr hp, rfl⟩
  by_cases ho : ∃ v, o = .link v
  · obtain ⟨v, rfl⟩ := ho
    cases hperform
    refine ⟨⟨[v.intValue env], rfl⟩, fun hall => hagain ?_⟩
    obtain ⟨n, hn⟩ := hall (v.intValue env) (List.mem_cons_self ..)
    change State.moveTo true (v.intValue env) e = _
    rw [hn]
    rfl
  · have ho' : ∀ v, o ≠ .link v := fun v hv => ho ⟨v, hv⟩
    refine ⟨⟨[], links_perform ho' hperform⟩, fun _ => hagain ?_⟩
    rw [← hperform]
    cases o with
    | link v => exact absurd rfl (ho' v)
    | _ => rfl

theorem related_atOnce (fs : FileSystem) :
    Backend.Related Keeps (eager env fs false).recording (eager env fs true).recording where
  lift r := .of_links fun _ _ _ h => by cases h; rfl
  bind := Keeps.bind
  label pos name := by
    refine .of_links ?_
    rintro ⟨e, ns⟩ ⟨⟩ ⟨e', ns'⟩ hrun
    obtain ⟨p, -, h⟩ := bind_eq_ok.mp (Attempt.run_update_eq_ok.mp (run_besideNumbers.mp hrun).1)
    cases h
    rfl
  operation := keeps_operation fs
  count pos v := by
    refine .of_links ?_
    rintro ⟨e, ns⟩ n ⟨e', ns'⟩ hrun
    obtain ⟨m, ⟨e₁, ns₁⟩, hcount, h⟩ := Attempt.run_bind_eq_ok.mp hrun
    cases h
    have he : e = e₁ := congrArg Prod.snd (run_besideNumbers.mp hcount).1
    exact congrArg State.links he.symm
  openFiles := .of_links fun _ _ _ h => by cases h; rfl
  inFile file {x y} h := by
    rintro ⟨e, ns⟩ a ⟨e', ns'⟩ hrun
    rcases hx : x.run ((eager env fs false).enter file e, ns) with ⟨r, e₁, ns₁⟩
    rw [(eager env fs false).run_inFile_recording hx] at hrun
    cases hrun
    obtain ⟨hlinks, hy⟩ := h _ _ _ hx
    exact ⟨hlinks, fun hall => (eager env fs true).run_inFile_recording (hy hall)⟩

end Strict

/-- What the eager assembler is given by a session that links. -/
theorem Linked.holds {s : Session} {image : Image} {t : SymbolTable} {memory : Array UInt8}
    (h : Linked s image t memory) : Holds t.results s := by
  refine ⟨⟨memory, h.stores⟩, ?_, fun name v hv => ?_⟩
  · exact (SymbolTable.agreesWith_results t).of_grows h.grows
  · have hb : t.binding? name = some v := by
      rw [SymbolTable.binding?_eq_of_definitions h.grows.definitions, hv]
    obtain ⟨y, hy, rfl⟩ := Option.map_eq_some_iff.mp hb
    obtain ⟨n, hn⟩ := h.settled y (List.mem_of_find?_eq_some hy)
    have hres : t.IsResolved name (.int n) := by
      rw [SymbolTable.IsResolved, SymbolTable.progress?, hy, Option.map_some, hn]
    refine ⟨n, SymbolTable.results_eq_ok.mpr hres, ?_⟩
    rw [Lazy.intValue, h.quiet.sound.settled name _ _ hb hres t.results
      (SymbolTable.agreesWith_results t)]
    rfl

/-- A session before its first input. -/
def startAt (link : Int64) (project : Bool) : Session :=
  (Session.new.setProject project).setLink link

theorem matches_start (env : Env) (link : Int64) (project : Bool) :
    Matches env (startAt link project) (State.start link) :=
  ⟨rfl, rfl, rfl, rfl, by simp [State.start], by simp [State.start]⟩

/-- A session that links is one that the eager assembler, given the symbols of the image, runs
through without a failure: the labels it meets stand where the image has them, the constants have
the values of their expressions, blocks are repeated as often, and its memory is the data of the
image. Each address of a link directive must have a value only where it is used; if all of them
have, they may be evaluated at once. -/
theorem eager_run_of_link {fs : FileSystem} {inputs : List Input} {link : Int64} {project : Bool}
    {final s' : Session} {image : Image}
    (hadd : (addInputs fs inputs).run (startAt link project) = (.ok (), final))
    (hlink : Session.linkImage.run final = (.ok image, s')) :
    ∃ numbers e,
      ((deferred fs).recording.addAll fs inputs).run (startAt link project, []) =
        (.ok (), final, numbers) ∧
      ((eager (.ofSymbols image.symbols) fs false).recording.addAll fs inputs).run
        (State.start link, []) = (.ok (), e, numbers) ∧
      (∀ l ∈ e.labels, image.symbols.lookup l.1 = some l.2) ∧
      (∀ q ∈ e.equates, image.symbols.lookup q.1 = some q.2) ∧
      e.memory.toList.drop image.link.toNatClampNeg = image.data ∧
      ((∀ l ∈ e.links, ∃ a, l = .ok a) →
        ((eager (.ofSymbols image.symbols) fs true).recording.addAll fs inputs).run
          (State.start link, []) = (.ok (), e, numbers)) := by
  obtain ⟨numbers, hrec⟩ :=
    (related_recording (deferred fs)).addAll fs inputs (startAt link project) []
  rw [addAll_deferred, hadd] at hrec
  have hrelated : ∀ env : Env, Backend.Related (Simulates env) _ _ := fun _ => related_eager fs
  have hsim := fun env => (hrelated env).addAll fs inputs (startAt link project) [] () final
    numbers SymbolTable.quiet_empty hrec
  obtain ⟨t, memory, hl⟩ := linked_of_linkImage (hsim fun _ => .ok (.int 0)).1 hlink
  have henv : t.results = .ofSymbols image.symbols := by rw [hl.settled.results_eq, hl.symbols]
  have hholds := hl.holds
  rw [henv] at hholds
  obtain ⟨-, -, hstep⟩ := hsim (.ofSymbols image.symbols)
  obtain ⟨e, hrun, hm⟩ := hstep _ (matches_start _ link project) hholds
  refine ⟨numbers, e, hrec, hrun, fun l hl => ?_, fun q hq => ?_, ?_, fun hall => ?_⟩
  · obtain ⟨n, hn, he⟩ := Env.ofSymbols_eq_ok.mp (hm.labels l hl)
    cases he
    exact hn
  · obtain ⟨n, hn, he⟩ := Env.ofSymbols_eq_ok.mp (hm.equates q hq)
    cases he
    exact hn
  · have hmem := hl.stores
    rw [henv, hm.memory] at hmem
    rw [hl.data, Except.ok.inj hmem]
  · exact ((related_atOnce fs).addAll fs inputs _ _ _ hrun).2 hall

/-- The length of the space at the start is known last. -/
def lengthLast : List Input := [.source "a" "A: .BLKB N\n.REPEAT 2 \x7b\n.WORD A\n\x7d\nN = 1\n"]

theorem eager_run_of_link_lengthLast :
    ∃ final s' image numbers e,
      (addInputs noFiles lengthLast).run (startAt 2 false) = (.ok (), final) ∧
      Session.linkImage.run final = (.ok image, s') ∧ image.data = [0, 2, 0, 2, 0] ∧
      image.link = 2 ∧
      ((eager (.ofSymbols image.symbols) noFiles false).recording.addAll noFiles lengthLast).run
        (State.start 2, []) = (.ok (), e, numbers) ∧
      e.memory.toList.drop image.link.toNatClampNeg = image.data := by
  have hadded : ((addInputs noFiles lengthLast).outcome (startAt 2 false)).toOption.map id =
      some () := by decide +kernel
  have hlinked : (Session.linkImage.outcome
      ((addInputs noFiles lengthLast).run (startAt 2 false)).2).toOption.map
        (fun image => (image.data, image.link)) = some ([0, 2, 0, 2, 0], 2) := by decide +kernel
  obtain ⟨⟨⟩, hadd, -⟩ := run_of_outcome hadded
  obtain ⟨image, hlink, himage⟩ := run_of_outcome hlinked
  obtain ⟨numbers, e, -, hrun, -, -, hdata, -⟩ := eager_run_of_link hadd hlink
  exact ⟨_, _, image, numbers, e, hadd, hlink, congrArg Prod.fst himage,
    congrArg Prod.snd himage, hrun, hdata⟩

/-- The first address is never used. -/
def unusedAddress : List Input := [.source "a" ".LINK X\n.LINK 2\n.BYTE 1\n"]

/-- A session links although the address of a link directive has no value. -/
theorem link_with_unused_address :
    ∃ final s' image,
      (addInputs noFiles unusedAddress).run (startAt 0 false) = (.ok (), final) ∧
      Session.linkImage.run final = (.ok image, s') ∧
      ∀ e numbers, ((eager (.ofSymbols image.symbols) noFiles true).recording.addAll noFiles
        unusedAddress).run (State.start 0, []) ≠ (.ok (), e, numbers) := by
  have hadded : ((addInputs noFiles unusedAddress).outcome (startAt 0 false)).toOption.map id =
      some () := by decide +kernel
  have hlinked : (Session.linkImage.outcome
      ((addInputs noFiles unusedAddress).run (startAt 0 false)).2).toOption.map
        (fun image => image.symbols) = some [] := by decide +kernel
  have hrefused : (((eager (.ofSymbols []) noFiles true).recording.addAll noFiles
      unusedAddress).outcome (State.start 0, [])).toOption = none := by decide +kernel
  obtain ⟨⟨⟩, hadd, -⟩ := run_of_outcome hadded
  obtain ⟨image, hlink, hsymbols⟩ := run_of_outcome hlinked
  refine ⟨_, _, image, hadd, hlink, fun e numbers hrun => ?_⟩
  rw [hsymbols] at hrun
  rw [Attempt.outcome, hrun] at hrefused
  cases hrefused

end Eleven.Assembly
