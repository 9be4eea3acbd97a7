import Btlos.Library.Linearization
import Btlos.Paging.System

/-! `pg_getpage` of several processes at the same time, with a step for each access to a
device that they share. A call of `MEMPHY_get_freefp` is one step. -/
namespace Btlos

open Transition

/-- Which of the two copies of `pg_getpage`. -/
inductive PageCopy where
  | out
  | back
deriving DecidableEq

/-- Where a process stands in a call of `pg_getpage`. -/
inductive GetpageLoc where
  | idle
  | enter (pgn : Int)
  | getFrame (pgn : Int)
  | findVictim (pgn : Int)
  | getSwapFrame (pgn vicpgn : Int)
  | read (copy : PageCopy) (pgn vicpgn frame : Int) (cellidx : Nat)
  | write (copy : PageCopy) (pgn vicpgn frame : Int) (cellidx : Nat) (data : Byte)
  | update (pgn vicpgn frame : Int)
  | enlist (pgn : Int) (pte : BitVec 32)

namespace GetpageLoc

/-- The page that the call is for. -/
def pgn : GetpageLoc → Int
  | idle => 0
  | enter pgn | getFrame pgn | findVictim pgn | getSwapFrame pgn _ => pgn
  | read _ pgn _ _ _ | write _ pgn _ _ _ _ | update pgn _ _ | enlist pgn _ => pgn

end GetpageLoc

/-- The frames between which a copy goes. -/
def PageCopy.frames (s : Caller) (pgn vicpgn frame : Int) : PageCopy → Int × Int
  | out => (pagingFpn (s.mm.pgd vicpgn), frame)
  | back => (pagingSwp (s.mm.pgd pgn), pagingFpn (s.mm.pgd vicpgn))

/-- The next step of a call, with what it returns when it does. The entries are those of
the page table until `update`, since no other process writes it. -/
def getpageStep (junk : Byte) (s : Caller) :
    GetpageLoc → Option (Caller × GetpageLoc × Option (Option Int))
  | .idle => none
  | .enter pgn =>
      if pgn < 0 ∨ pgn ≥ pagingMaxPgn then some (s, .idle, some none)
      else if pagingPagePresent (s.mm.pgd pgn) then some (s, .enlist pgn (s.mm.pgd pgn), none)
      else some (s, .getFrame pgn, none)
  | .getFrame pgn =>
      match memphyGetFreefp s.mram with
      | .ok freefpn mram =>
          some ({ s with mram := mram }, .enlist pgn (pteSetFpn (s.mm.pgd pgn) freefpn), none)
      | .fail mram => some ({ s with mram := mram }, .findVictim pgn, none)
      | .undefined => none
  | .findVictim pgn =>
      match findVictimPage s.mm.lruPgn with
      | .ok vicpgn lruPgn => some (s.setLru lruPgn, .getSwapFrame pgn vicpgn, none)
      | .fail lruPgn => some (s.setLru lruPgn, .idle, some none)
      | .undefined => none
  | .getSwapFrame pgn vicpgn =>
      match memphyGetFreefp s.activeMswp with
      | .ok frame mp => some ({ s with activeMswp := mp }, .read .out pgn vicpgn frame 0, none)
      | .fail mp => some ({ s with activeMswp := mp }, .idle, some none)
      | .undefined => none
  | .read copy pgn vicpgn frame cellidx =>
      if cellidx < pagingPagesz then
        let addrsrc := cint ((copy.frames s pgn vicpgn frame).1 * pagingPagesz + cellidx)
        match (memphyRead s.mram addrsrc).ignoreCode junk with
        | .ok data mram =>
            some ({ s with mram := mram }, .write copy pgn vicpgn frame cellidx data, none)
        | _ => none
      else
        match copy with
        | .out => some (s, .read .back pgn vicpgn frame 0, none)
        | .back => some (s, .update pgn vicpgn frame, none)
  | .write copy pgn vicpgn frame cellidx data =>
      let addrdst := cint ((copy.frames s pgn vicpgn frame).2 * pagingPagesz + cellidx)
      match (memphyWrite s.activeMswp addrdst data).ignoreCode () with
      | .ok _ mp =>
          some ({ s with activeMswp := mp }, .read copy pgn vicpgn frame (cellidx + 1), none)
      | _ => none
  | .update pgn vicpgn frame =>
      let vicpte := s.mm.pgd vicpgn
      let dstfpnIn := pagingFpn vicpte
      let swpoff := cint (frame * 2 ^ pagingAddrFpnLobit)
      let pte := setbit (pteSetFpn (s.mm.pgd pgn) dstfpnIn) pagingPtePresentMask
      let vicpte := clrbit (pteSetSwap vicpte 0 swpoff) pagingPtePresentMask
      some (s.setPgd (Function.update (Function.update s.mm.pgd vicpgn vicpte) pgn pte),
        .enlist pgn pte, none)
  | .enlist pgn pte =>
      match enlistPgnNode s.mm.lruPgn pgn with
      | .ok _ lruPgn => some (s.setLru lruPgn, .idle, some (some (pagingFpn pte)))
      | _ => none

/-! A call on its own -/

section Alone

variable {junk : Byte} {s t : Caller} {loc loc' : GetpageLoc} {call : Outcome Caller Int}

/-- A step of a call while no other process makes one. -/
def Alone (junk : Byte) (s : Caller × GetpageLoc) (answer : Option (Option Int))
    (t : Caller × GetpageLoc) : Prop :=
  getpageStep junk s.1 s.2 = some (t.1, t.2, answer)

/-- The steps from here on end as the call does. -/
def EndsAs (junk : Byte) (s : Caller) (loc : GetpageLoc) : Outcome Caller Int → Prop
  | .ok fpn t => ∃ steps,
      Runs (Alone junk) (s, loc) (List.replicate steps none ++ [some (some fpn)]) (t, .idle)
  | .fail t => ∃ steps,
      Runs (Alone junk) (s, loc) (List.replicate steps none ++ [some none]) (t, .idle)
  | .undefined => True

theorem EndsAs.step (h : EndsAs junk t loc' call)
    (hStep : getpageStep junk s loc = some (t, loc', none)) : EndsAs junk s loc call := by
  have hFirst : Alone junk (s, loc) none (t, loc') := hStep
  cases call with
  | undefined => trivial
  | ok fpn u =>
      obtain ⟨steps, run⟩ := h
      exact ⟨steps + 1, Runs.cons hFirst run⟩
  | fail u =>
      obtain ⟨steps, run⟩ := h
      exact ⟨steps + 1, Runs.cons hFirst run⟩

private theorem endsAs_fail (hStep : getpageStep junk s loc = some (t, .idle, some none)) :
    EndsAs junk s loc (.fail t) := by
  have hOnly : Alone junk (s, loc) (some none) (t, .idle) := hStep
  exact ⟨0, Runs.one hOnly⟩

private theorem endsAs_enlist (pgn : Int) (pte : BitVec 32) :
    EndsAs junk s (.enlist pgn pte)
      (((enlistPgnNode s.mm.lruPgn pgn).lift s.setLru).bind fun _ s => .ok (pagingFpn pte) s) := by
  cases hLru : s.mm.lruPgn with
  | freed => trivial
  | nodes pages =>
      rw [enlistPgnNode_nodes]
      refine ⟨0, Runs.one ?_⟩
      simp only [Alone, getpageStep, hLru, enlistPgnNode_nodes]

/-- The loop of `__swap_cp_page`, and what comes after it. -/
private theorem endsAs_copy {copy : PageCopy} {pgn vicpgn frame srcfpn dstfpn : Int}
    {next : Unit → Caller → Outcome Caller Int} (rounds cellidx : Nat)
    (hRounds : cellidx + rounds = pagingPagesz)
    (hFrames : copy.frames s pgn vicpgn frame = (srcfpn, dstfpn))
    (hNext : ∀ mram activeMswp, EndsAs junk { s with mram := mram, activeMswp := activeMswp }
      (.read copy pgn vicpgn frame pagingPagesz)
      (next () { s with mram := mram, activeMswp := activeMswp })) :
    EndsAs junk s (.read copy pgn vicpgn frame cellidx)
      (((swapCpLoop junk srcfpn dstfpn rounds cellidx (s.mram, s.activeMswp)).lift fun devices =>
        { s with mram := devices.1, activeMswp := devices.2 }).bind next) := by
  induction rounds generalizing s cellidx with
  | zero =>
      obtain rfl : cellidx = pagingPagesz := hRounds
      exact hNext s.mram s.activeMswp
  | succ rounds ih =>
      have hMore : cellidx < pagingPagesz := by omega
      rw [swapCpLoop, swapCpCell]
      cases hRead :
        (memphyRead s.mram (cint (srcfpn * pagingPagesz + cellidx))).ignoreCode junk with
      | undefined => trivial
      | fail mram => exact absurd hRead (Outcome.neverFails_ignoreCode _ _ mram)
      | ok data mram =>
          simp only [Outcome.lift_ok, Outcome.bind_ok]
          cases hWrite : (memphyWrite s.activeMswp (cint (dstfpn * pagingPagesz + cellidx))
              data).ignoreCode () with
          | undefined => trivial
          | fail mp => exact absurd hWrite (Outcome.neverFails_ignoreCode _ _ mp)
          | ok _ mp =>
              simp only [Outcome.lift_ok, Outcome.bind_ok]
              have hRest := ih (s := { s with mram := mram, activeMswp := mp }) (cellidx + 1)
                (by omega) hFrames hNext
              push_cast at hRest
              have hFrames' : copy.frames { s with mram := mram } pgn vicpgn frame =
                  (srcfpn, dstfpn) := hFrames
              have hReadStep : getpageStep junk s (.read copy pgn vicpgn frame cellidx) =
                  some ({ s with mram := mram },
                    .write copy pgn vicpgn frame cellidx data, none) := by
                simp only [getpageStep, if_pos hMore, hFrames, hRead]
              have hWriteStep : getpageStep junk { s with mram := mram }
                  (.write copy pgn vicpgn frame cellidx data) =
                    some ({ s with mram := mram, activeMswp := mp },
                      .read copy pgn vicpgn frame (cellidx + 1), none) := by
                simp only [getpageStep, hFrames', hWrite]
              exact (hRest.step hWriteStep).step hReadStep

/-- A call that finds no frame of RAM, from `find_victim_page` on. -/
private theorem endsAs_findVictim (pgn : Int) :
    EndsAs junk s (.findVictim pgn)
      ((pgReplace junk pgn (s.mm.pgd pgn) s).bind fun pte s =>
        ((enlistPgnNode s.mm.lruPgn pgn).lift s.setLru).bind fun _ s => .ok (pagingFpn pte) s) := by
  rw [pgReplace]
  cases hVictim : findVictimPage s.mm.lruPgn with
  | undefined => trivial
  | fail lruPgn =>
      apply endsAs_fail
      simp only [getpageStep, hVictim]
  | ok vicpgn lruPgn =>
      simp only [Outcome.lift_ok, Outcome.bind_ok]
      have hVictimStep : getpageStep junk s (.findVictim pgn) =
          some (s.setLru lruPgn, .getSwapFrame pgn vicpgn, none) := by
        simp only [getpageStep, hVictim]
      apply EndsAs.step ?_ hVictimStep
      cases hFrame : memphyGetFreefp (s.setLru lruPgn).activeMswp with
      | undefined => trivial
      | fail mp =>
          apply endsAs_fail
          simp only [getpageStep, hFrame]
      | ok frame mp =>
          simp only [Outcome.lift_ok, Outcome.bind_ok]
          have hFrameStep : getpageStep junk (s.setLru lruPgn) (.getSwapFrame pgn vicpgn) =
              some ({ s.setLru lruPgn with activeMswp := mp }, .read .out pgn vicpgn frame 0,
                none) := by
            simp only [getpageStep, hFrame]
          apply EndsAs.step ?_ hFrameStep
          rw [Outcome.bind_assoc]
          apply endsAs_copy pagingPagesz 0 (Nat.zero_add _) rfl
          intro mram mswp
          have hDone : ¬ pagingPagesz < pagingPagesz := Nat.lt_irrefl _
          have hBackStep : getpageStep junk
              { s.setLru lruPgn with mram := mram, activeMswp := mswp }
              (.read .out pgn vicpgn frame pagingPagesz) =
                some ({ s.setLru lruPgn with mram := mram, activeMswp := mswp },
                  .read .back pgn vicpgn frame 0, none) := by
            simp only [getpageStep, if_neg hDone]
          apply EndsAs.step ?_ hBackStep
          rw [Outcome.bind_assoc]
          apply endsAs_copy pagingPagesz 0 (Nat.zero_add _) rfl
          intro mram' mswp'
          have hUpdateStep : getpageStep junk
              { s.setLru lruPgn with mram := mram', activeMswp := mswp' }
              (.read .back pgn vicpgn frame pagingPagesz) =
                some ({ s.setLru lruPgn with mram := mram', activeMswp := mswp' },
                  .update pgn vicpgn frame, none) := by
            simp only [getpageStep, if_neg hDone]
          apply EndsAs.step ?_ hUpdateStep
          exact (endsAs_enlist pgn _).step rfl

/-- A call that runs on its own ends as `pg_getpage` does. -/
theorem getpage_alone (junk : Byte) (pgn : Int) (s : Caller) :
    EndsAs junk s (.enter pgn) (pgGetpage junk pgn s) := by
  simp only [pgGetpage]
  split_ifs with hBad hPresent
  · apply endsAs_fail
    simp only [getpageStep, if_pos hBad]
  · have hStep : getpageStep junk s (.enter pgn) =
        some (s, .enlist pgn (s.mm.pgd pgn), none) := by
      simp only [getpageStep, if_neg hBad, if_pos hPresent]
    exact (endsAs_enlist pgn _).step hStep
  · have hStep : getpageStep junk s (.enter pgn) = some (s, .getFrame pgn, none) := by
      simp only [getpageStep, if_neg hBad, if_neg hPresent]
    apply EndsAs.step ?_ hStep
    rw [pgMakePresent]
    cases hFrame : memphyGetFreefp s.mram with
    | undefined => trivial
    | ok freefpn mram =>
        have hFrameStep : getpageStep junk s (.getFrame pgn) =
            some ({ s with mram := mram },
              .enlist pgn (pteSetFpn (s.mm.pgd pgn) freefpn), none) := by
          simp only [getpageStep, hFrame]
        exact (endsAs_enlist pgn _).step hFrameStep
    | fail mram =>
        obtain rfl : s.mram = mram := by
          cases hList : s.mram.freeFpList with
          | nil => simpa [memphyGetFreefp, hList] using hFrame
          | cons => simp [memphyGetFreefp, hList] at hFrame
        have hFrameStep : getpageStep junk s (.getFrame pgn) = some (s, .findVictim pgn, none) := by
          simp only [getpageStep, hFrame]
        exact (endsAs_findVictim pgn).step hFrameStep

end Alone

/-- The processes, each in at most one call. -/
structure Getpages (Proc : Type*) where
  sys : System Proc
  loc : Proc → GetpageLoc

inductive GetpageEvent (Proc : Type*) where
  | call (proc : Proc) (pgn : Int)
  | step (proc : Proc) (answer : Option (Int × Option Int))

/-- The page that is returned, and its frame unless the call fails. -/
def GetpageEvent.returns? {Proc : Type*} :
    GetpageEvent Proc → Option (Proc × Int × Option Int)
  | call _ _ => none
  | step proc answer => answer.map fun answer => (proc, answer)

/-- A whole call. -/
inductive Caller.Answers (s : Caller) (pgn : Int) : Option Int → Caller → Prop where
  | ok (junk : Byte) {fpn : Int} {t : Caller} (hCall : pgGetpage junk pgn s = .ok fpn t) :
      Answers s pgn (some fpn) t
  | fail (junk : Byte) {t : Caller} (hCall : pgGetpage junk pgn s = .fail t) :
      Answers s pgn none t

variable {Proc : Type*} [DecidableEq Proc]

def System.Answers (sys : System Proc) (call : Proc × Int × Option Int) (sys' : System Proc) :
    Prop :=
  ∃ t, (sys.caller call.1).Answers call.2.1 call.2.2 t ∧ sys' = sys.put call.1 t

namespace Getpages

/-- After a step of the process that left this memory. -/
def move (s : Getpages Proc) (proc : Proc) (u : Caller) (loc : GetpageLoc) : Getpages Proc :=
  ⟨s.sys.put proc u, Function.update s.loc proc loc⟩

@[simp] theorem move_sys (s : Getpages Proc) (proc : Proc) (u : Caller) (loc : GetpageLoc) :
    (s.move proc u loc).sys = s.sys.put proc u := rfl

theorem move_loc (s : Getpages Proc) (proc other : Proc) (u : Caller) (loc : GetpageLoc) :
    (s.move proc u loc).loc other = if other = proc then loc else s.loc other :=
  Function.update_apply ..

inductive Step : Getpages Proc → GetpageEvent Proc → Getpages Proc → Prop where
  | call {s : Getpages Proc} (proc : Proc) (pgn : Int) (hLoc : s.loc proc = .idle) :
      Step s (.call proc pgn) (s.move proc (s.sys.caller proc) (.enter pgn))
  | step {s : Getpages Proc} {junk : Byte} {t : Caller} {loc : GetpageLoc}
      {answer : Option (Option Int)} (proc : Proc)
      (hStep : getpageStep junk (s.sys.caller proc) (s.loc proc) = some (t, loc, answer)) :
      Step s (.step proc (answer.map fun result => ((s.loc proc).pgn, result)))
        (s.move proc t loc)

/-- The steps, to compute runs. -/
def getpagesStep (junk : Byte) (s : Getpages Proc) : GetpageEvent Proc → Option (Getpages Proc)
  | .call proc pgn =>
      match s.loc proc with
      | .idle => some (s.move proc (s.sys.caller proc) (.enter pgn))
      | _ => none
  | .step proc answer =>
      (getpageStep junk (s.sys.caller proc) (s.loc proc)).bind fun (t, loc, result) =>
        if result.map (fun result => ((s.loc proc).pgn, result)) = answer then
          some (s.move proc t loc)
        else none

theorem getpagesStep_step {junk : Byte} {s t : Getpages Proc} {event : GetpageEvent Proc}
    (h : getpagesStep junk s event = some t) : Step s event t := by
  cases event with
  | call proc pgn =>
      cases hLoc : s.loc proc with
      | idle =>
          obtain rfl : s.move proc (s.sys.caller proc) (.enter pgn) = t := by
            simpa [getpagesStep, hLoc] using h
          exact .call proc pgn hLoc
      | _ => simp [getpagesStep, hLoc] at h
  | step proc answer =>
      obtain ⟨⟨u, loc, result⟩, hStep, hMove⟩ := Option.bind_eq_some_iff.mp h
      obtain ⟨rfl, hMove⟩ := Option.ite_none_right_eq_some.mp hMove
      obtain rfl : s.move proc u loc = t := by simpa using hMove
      exact .step proc hStep

/-- No process has its list of recent pages on a freed node. -/
def Intact (s : Getpages Proc) : Prop := ∀ proc, (s.sys.mm proc).lruPgn ≠ .freed

end Getpages

/-! What a call amounts to. It takes effect with the frame that it gets, of RAM or of swap, or
with the answer that there is none. -/

/-- The page is first in the list. -/
def Mm.enlisted (mm : Mm) (pgn : Int) : Mm :=
  { mm with lruPgn := match mm.lruPgn with
    | .nodes pages => .nodes (pgn :: pages.erase pgn)
    | .freed => .freed }

/-- The page has the frame of the victim, which is on swap. -/
def Mm.replaced (mm : Mm) (pgn vicpgn frame : Int) : Mm :=
  { mm with
    pgd := Function.update
      (Function.update mm.pgd vicpgn (pteSwappedTo (mm.pgd vicpgn) frame)) pgn
      (pteSetFpn (mm.pgd pgn) (pagingFpn (mm.pgd vicpgn))) }

/-- The victim is back in the list. -/
def Mm.withVictim (mm : Mm) (vicpgn : Int) : Mm :=
  { mm with lruPgn := match mm.lruPgn with
    | .nodes pages => .nodes (pages ++ [vicpgn])
    | .freed => .nodes [vicpgn] }

namespace GetpageLoc

/-- The call has not taken effect, and the page has no entry. -/
def Undecided : GetpageLoc → Prop
  | getFrame _ | findVictim _ | getSwapFrame _ _ => True
  | _ => False

/-- The call has found no frame of RAM, and has not taken effect. -/
def PastRam : GetpageLoc → Prop
  | findVictim _ | getSwapFrame _ _ => True
  | _ => False

/-- The memory of the process with all of the call, if it has taken effect, or none of it. -/
def settled (mm : Mm) : GetpageLoc → Mm
  | idle | enter _ | getFrame _ | findVictim _ => mm
  | getSwapFrame _ vicpgn => mm.withVictim vicpgn
  | read _ pgn vicpgn frame _ | write _ pgn vicpgn frame _ _ | update pgn vicpgn frame =>
      (mm.replaced pgn vicpgn frame).enlisted pgn
  | enlist pgn _ => mm.enlisted pgn

/-- The answer of a call that has taken effect. -/
def pending : GetpageLoc → List (Int × Option Int)
  | idle | enter _ | getFrame _ | findVictim _ | getSwapFrame _ _ => []
  | read _ pgn _ _ _ | write _ pgn _ _ _ _ | update pgn _ _ => [(pgn, some 0)]
  | enlist pgn pte => [(pgn, some (pagingFpn pte))]

end GetpageLoc

/-- A process in a call, and the same process with whole calls only. The contents of the
devices are not compared. -/
structure InCall (loc : GetpageLoc) (c d : Caller) : Prop where
  mram : c.mram.SameFrames d.mram
  activeMswp : c.activeMswp.SameFrames d.activeMswp
  ramRandom : c.mram.rdmflg = true
  swapRandom : c.activeMswp.rdmflg = true
  mm : d.mm = loc.settled c.mm
  undecided : loc.Undecided → 0 ≤ loc.pgn ∧ loc.pgn < pagingMaxPgn ∧
    pagingPagePresent (c.mm.pgd loc.pgn) = false
  pastRam : loc.PastRam → c.mram.freeFpList = []
  victim : ∀ pgn vicpgn, loc = .getSwapFrame pgn vicpgn → c.mm.lruPgn ≠ .nodes []

/-- A step of a call: the whole calls that it amounts to, and where it leads. -/
structure Advances (loc loc' : GetpageLoc) (answer : Option (Option Int)) (c u d : Caller)
    (answers : List (Int × Option Int)) (v : Caller) : Prop where
  inCall : InCall loc' u v
  whole : answers = [] ∧ v = d ∨
    ∃ result, answers = [(loc.pgn, result)] ∧ d.Answers loc.pgn result v
  exhausted : c.mram.freeFpList = [] → u.mram.freeFpList = []
  order : loc.pending ++ answers =
    (answer.map fun result => (loc.pgn, result)).toList ++ loc'.pending

section Step

variable {junk : Byte} {loc loc' : GetpageLoc} {answer : Option (Option Int)} {c d u : Caller}

/-- A call that has taken effect, or returned. -/
private theorem InCall.of_decided (hMram : c.mram.SameFrames d.mram)
    (hMswp : c.activeMswp.SameFrames d.activeMswp) (hRam : c.mram.rdmflg = true)
    (hSwap : c.activeMswp.rdmflg = true) (hMm : d.mm = loc.settled c.mm)
    (hDecided : ¬ loc.Undecided) : InCall loc c d := by
  refine ⟨hMram, hMswp, hRam, hSwap, hMm, fun hNo => absurd hNo hDecided, fun hPast => ?_,
    fun pgn vicpgn hLoc => ?_⟩
  · cases loc with
    | findVictim | getSwapFrame => exact absurd trivial hDecided
    | _ => cases hPast
  · rw [hLoc] at hDecided
    exact absurd trivial hDecided

private theorem InCall.call (h : InCall .idle c d) (pgn : Int) :
    Advances .idle (.enter pgn) none c c d [] d :=
  ⟨.of_decided h.mram h.activeMswp h.ramRandom h.swapRandom h.mm id, Or.inl ⟨rfl, rfl⟩, id, rfl⟩

/-- A call that does not reach a shared access takes effect at once. -/
private theorem InCall.enter {pgn : Int} (h : InCall (.enter pgn) c d)
    (hStep : getpageStep junk c (.enter pgn) = some (u, loc', answer))
    (hIntact : c.mm.lruPgn ≠ .freed) :
    ∃ answers v, Advances (.enter pgn) loc' answer c u d answers v := by
  have hMm : d.mm = c.mm := h.mm
  simp only [getpageStep] at hStep
  split_ifs at hStep with hBad hPresent
  · obtain ⟨rfl, rfl, rfl⟩ : c = u ∧ .idle = loc' ∧ some none = answer := by simpa using hStep
    refine ⟨[(pgn, none)], d, .of_decided h.mram h.activeMswp h.ramRandom h.swapRandom hMm id,
      Or.inr ⟨none, rfl, .fail 0 ?_⟩, id, rfl⟩
    exact if_pos hBad
  · obtain ⟨rfl, rfl, rfl⟩ : c = u ∧ .enlist pgn (c.mm.pgd pgn) = loc' ∧ none = answer := by
      simpa using hStep
    cases hLru : c.mm.lruPgn with
    | freed => exact absurd hLru hIntact
    | nodes pages =>
        have hCall : pgGetpage 0 pgn d =
            .ok (pagingFpn (c.mm.pgd pgn)) (d.setLru (.nodes (pgn :: pages.erase pgn))) := by
          simp only [pgGetpage, if_neg hBad, hMm, hPresent, if_true, Outcome.bind_ok, hLru,
            enlistPgnNode_nodes, Outcome.lift_ok]
        refine ⟨[(pgn, some (pagingFpn (c.mm.pgd pgn)))],
          d.setLru (.nodes (pgn :: pages.erase pgn)),
          .of_decided h.mram h.activeMswp h.ramRandom h.swapRandom ?_ id,
          Or.inr ⟨_, rfl, .ok 0 hCall⟩, id, rfl⟩
        simp only [Caller.setLru, GetpageLoc.settled, Mm.enlisted, hMm, hLru]
  · obtain ⟨rfl, rfl, rfl⟩ : c = u ∧ .getFrame pgn = loc' ∧ none = answer := by simpa using hStep
    have hAbsent : pagingPagePresent (c.mm.pgd pgn) = false := eq_false_of_ne_true hPresent
    exact ⟨[], d, ⟨h.mram, h.activeMswp, h.ramRandom, h.swapRandom, hMm,
      fun _ => ⟨by simp only [GetpageLoc.pgn]; omega,
        by simp only [GetpageLoc.pgn]; omega, hAbsent⟩,
      False.elim, fun _ _ hLoc => by cases hLoc⟩, Or.inl ⟨rfl, rfl⟩, id, rfl⟩

private theorem InCall.getFrame {pgn : Int} (h : InCall (.getFrame pgn) c d)
    (hStep : getpageStep junk c (.getFrame pgn) = some (u, loc', answer))
    (hIntact : c.mm.lruPgn ≠ .freed) :
    ∃ answers v, Advances (.getFrame pgn) loc' answer c u d answers v := by
  have hMm : d.mm = c.mm := h.mm
  obtain ⟨hLow, hHigh, hAbsent⟩ := h.undecided trivial
  simp only [getpageStep, memphyGetFreefp] at hStep
  cases hList : c.mram.freeFpList with
  | nil =>
      obtain ⟨rfl, rfl, rfl⟩ : c = u ∧ .findVictim pgn = loc' ∧ none = answer := by
        simpa [hList] using hStep
      exact ⟨[], d, ⟨h.mram, h.activeMswp, h.ramRandom, h.swapRandom, hMm,
        fun _ => ⟨hLow, hHigh, hAbsent⟩, fun _ => hList, fun _ _ hLoc => by cases hLoc⟩,
        Or.inl ⟨rfl, rfl⟩, id, rfl⟩
  | cons frame rest =>
      obtain ⟨rfl, rfl, rfl⟩ : { c with mram := { c.mram with freeFpList := rest } } = u ∧
          .enlist pgn (pteSetFpn (c.mm.pgd pgn) frame) = loc' ∧ none = answer := by
        simpa [hList] using hStep
      cases hLru : c.mm.lruPgn with
      | freed => exact absurd hLru hIntact
      | nodes pages =>
          have hCall : pgGetpage 0 pgn d = .ok (frame / 256 % 4)
              { d.setLru (.nodes (pgn :: pages.erase pgn)) with
                mram := { d.mram with freeFpList := rest } } := by
            apply pgGetpage_freeFrame 0 ⟨hLow, hHigh⟩
            · rw [hMm]
              exact hAbsent
            · rw [h.mram.freeFpList, hList]
            · rw [hMm, hLru]
          refine ⟨[(pgn, some (frame / 256 % 4))],
            { d.setLru (.nodes (pgn :: pages.erase pgn)) with
              mram := { d.mram with freeFpList := rest } },
            .of_decided ⟨rfl, h.mram.maxsz, h.mram.rdmflg⟩ h.activeMswp h.ramRandom h.swapRandom ?_
              id, Or.inr ⟨_, rfl, .ok 0 hCall⟩, fun hNone => ?_, ?_⟩
          · simp only [Caller.setLru, GetpageLoc.settled, Mm.enlisted, hMm, hLru]
          · rw [hList] at hNone
            cases hNone
          · rw [GetpageLoc.pending, GetpageLoc.pending, pagingFpn_pteSetFpn]
            rfl

private theorem InCall.findVictim {pgn : Int} (h : InCall (.findVictim pgn) c d)
    (hStep : getpageStep junk c (.findVictim pgn) = some (u, loc', answer))
    (hIntact : u.mm.lruPgn ≠ .freed) :
    ∃ answers v, Advances (.findVictim pgn) loc' answer c u d answers v := by
  have hMm : d.mm = c.mm := h.mm
  obtain ⟨hLow, hHigh, hAbsent⟩ := h.undecided trivial
  have hNone := h.pastRam trivial
  simp only [getpageStep] at hStep
  cases hLru : c.mm.lruPgn with
  | freed => simp [hLru] at hStep
  | nodes pages =>
      rcases List.eq_nil_or_concat pages with rfl | ⟨pages, vicpgn, rfl⟩
      · obtain ⟨rfl, rfl, rfl⟩ : c.setLru (.nodes []) = u ∧ .idle = loc' ∧ some none = answer := by
          simpa [hLru] using hStep
        rw [c.setLru_self hLru]
        have hCall : pgGetpage 0 pgn d = .fail d := by
          have hGood : ¬ (pgn < 0 ∨ pgn ≥ pagingMaxPgn) := by
            simp only [GetpageLoc.pgn] at hLow hHigh
            omega
          have hLru' : d.mm.lruPgn = .nodes [] := by rw [hMm, hLru]
          have hAbsent' : pagingPagePresent (d.mm.pgd pgn) = false := by
            rw [hMm]
            exact hAbsent
          simp only [pgGetpage, if_neg hGood, hAbsent', Bool.false_eq_true, if_false, pgMakePresent,
            memphyGetFreefp, h.mram.freeFpList, hNone, pgReplace, hLru', findVictimPage_nil,
            Outcome.lift_fail, Outcome.bind_fail, d.setLru_self hLru']
        exact ⟨[(pgn, none)], d, .of_decided h.mram h.activeMswp h.ramRandom h.swapRandom hMm id,
          Or.inr ⟨none, rfl, .fail 0 hCall⟩, id, rfl⟩
      · rw [List.concat_eq_append] at hLru
        simp only [hLru, findVictimPage_concat] at hStep
        split_ifs at hStep with hPages
        · obtain ⟨rfl, -⟩ : c.setLru .freed = u ∧ _ := by simpa using hStep
          exact absurd rfl hIntact
        · obtain ⟨rfl, rfl, rfl⟩ : c.setLru (.nodes pages) = u ∧ .getSwapFrame pgn vicpgn = loc' ∧
              none = answer := by simpa using hStep
          refine ⟨[], d, ⟨h.mram, h.activeMswp, h.ramRandom, h.swapRandom, ?_,
            fun _ => ⟨hLow, hHigh, hAbsent⟩, fun _ => hNone, fun _ _ _ hEmpty => ?_⟩,
            Or.inl ⟨rfl, rfl⟩, id, rfl⟩
          · simp only [hMm, Caller.setLru, GetpageLoc.settled, Mm.withVictim, ← hLru]
          · exact hPages (PgnList.nodes.inj hEmpty)

/-- A whole call that finds no frame of RAM, with a victim that is not the only page of its
list. -/
private theorem pgGetpage_victim {s : Caller} {pgn vicpgn : Int} {pages : List Int}
    (hPgn : 0 ≤ pgn ∧ pgn < pagingMaxPgn) (hAbsent : pagingPagePresent (s.mm.pgd pgn) = false)
    (hNone : s.mram.freeFpList = []) (hLru : s.mm.lruPgn = .nodes (pages ++ [vicpgn]))
    (hPages : pages ≠ []) (hRam : s.mram.rdmflg = true) (hSwap : s.activeMswp.rdmflg = true) :
    s.activeMswp.freeFpList = [] ∧ pgGetpage 0 pgn s = .fail (s.setLru (.nodes pages)) ∨
      ∃ frame rest mram activeMswp, s.activeMswp.freeFpList = frame :: rest ∧
        s.mram.SameFrames mram ∧ { s.activeMswp with freeFpList := rest }.SameFrames activeMswp ∧
        pgGetpage 0 pgn s = .ok 0
          { mm := ({ s.mm with lruPgn := .nodes pages }.replaced pgn vicpgn frame).enlisted pgn
            mram := mram
            activeMswp := activeMswp } := by
  have hReturns := pgGetpage_returns 0 pgn hRam hSwap hLru (by simp [hPages])
  have hEnd := pgGetpage_cases 0 pgn s
  generalize pgGetpage 0 pgn s = call at hEnd hReturns
  cases hEnd with
  | badPage hBad => omega
  | resident _ _ hPresent => simp [hAbsent] at hPresent
  | freeFrame _ _ _ _ _ hFrame => simp [hNone] at hFrame
  | noVictim _ _ _ hEmpty => simp [hLru] at hEmpty
  | noSwapFrame pages' victim _ _ _ hLru' hFree =>
      obtain ⟨rfl, -⟩ := List.append_inj' (PgnList.nodes.inj (hLru.symm.trans hLru')) rfl
      rw [if_neg hPages]
      exact Or.inl ⟨hFree, rfl⟩
  | replaced pages' victim frame rest mram activeMswp _ _ _ hLru' _ hFree hRam' _ hMswp =>
      obtain ⟨rfl, hLast⟩ := List.append_inj' (PgnList.nodes.inj (hLru.symm.trans hLru')) rfl
      obtain rfl : vicpgn = victim := by simpa using hLast
      exact Or.inr ⟨frame, rest, mram, activeMswp, hFree, hRam', hMswp, rfl⟩
  | undefined => exact absurd rfl hReturns

private theorem InCall.getSwapFrame {pgn vicpgn : Int} (h : InCall (.getSwapFrame pgn vicpgn) c d)
    (hStep : getpageStep junk c (.getSwapFrame pgn vicpgn) = some (u, loc', answer))
    (hIntact : c.mm.lruPgn ≠ .freed) :
    ∃ answers v, Advances (.getSwapFrame pgn vicpgn) loc' answer c u d answers v := by
  obtain ⟨hLow, hHigh, hAbsent⟩ := h.undecided trivial
  have hNone := h.pastRam trivial
  cases hLru : c.mm.lruPgn with
  | freed => exact absurd hLru hIntact
  | nodes pages =>
      have hPages : pages ≠ [] := by
        rintro rfl
        exact h.victim pgn vicpgn rfl hLru
      have hMm : d.mm = { c.mm with lruPgn := .nodes (pages ++ [vicpgn]) } := by
        rw [h.mm, GetpageLoc.settled, Mm.withVictim, hLru]
      have hBefore : { d.mm with lruPgn := .nodes pages } = c.mm := by
        rw [hMm, ← hLru]
      have hCall := pgGetpage_victim (s := d) ⟨hLow, hHigh⟩ (by rw [hMm]; exact hAbsent)
        (h.mram.freeFpList.trans hNone) (by rw [hMm]) hPages (h.mram.rdmflg.trans h.ramRandom)
        (h.activeMswp.rdmflg.trans h.swapRandom)
      simp only [getpageStep, memphyGetFreefp] at hStep
      rcases hCall with ⟨hFree, hFail⟩ | ⟨frame, rest, mram, mswp, hFree, hRam, hMswp, hOk⟩
      · rw [h.activeMswp.freeFpList] at hFree
        obtain ⟨rfl, rfl, rfl⟩ : c = u ∧ .idle = loc' ∧ some none = answer := by
          simpa [hFree] using hStep
        exact ⟨[(pgn, none)], d.setLru (.nodes pages), .of_decided h.mram h.activeMswp h.ramRandom
          h.swapRandom hBefore id, Or.inr ⟨none, rfl, .fail 0 hFail⟩, id, rfl⟩
      · rw [h.activeMswp.freeFpList] at hFree
        obtain ⟨rfl, rfl, rfl⟩ :
            { c with activeMswp := { c.activeMswp with freeFpList := rest } } = u ∧
              .read .out pgn vicpgn frame 0 = loc' ∧ none = answer := by
          simpa [hFree] using hStep
        rw [hBefore] at hOk
        exact ⟨[(pgn, some 0)], ⟨(c.mm.replaced pgn vicpgn frame).enlisted pgn, mram, mswp⟩,
          .of_decided (h.mram.trans hRam) ⟨hMswp.freeFpList,
            hMswp.maxsz.trans h.activeMswp.maxsz, hMswp.rdmflg.trans h.activeMswp.rdmflg⟩
            h.ramRandom h.swapRandom rfl id, Or.inr ⟨_, rfl, .ok 0 hOk⟩, id, rfl⟩

/-- A device after an access to its contents. -/
private theorem Memphy.SameFrames.accessed {mp mp' other : Memphy} (h : mp.SameFrames other)
    (hAccess : mp.SameFrames mp') : mp'.SameFrames other :=
  ⟨h.freeFpList.trans hAccess.freeFpList.symm, h.maxsz.trans hAccess.maxsz.symm,
    h.rdmflg.trans hAccess.rdmflg.symm⟩

/-- Steps within the copies, after the call has taken effect. -/
private theorem InCall.copying (h : InCall loc c d) (hMram : c.mram.SameFrames u.mram)
    (hMswp : c.activeMswp.SameFrames u.activeMswp) (hMm : loc'.settled u.mm = loc.settled c.mm)
    (hPending : loc'.pending = loc.pending) (hUndecided : ¬ loc'.Undecided) :
    Advances loc loc' none c u d [] d := by
  refine ⟨.of_decided (h.mram.accessed hMram) (h.activeMswp.accessed hMswp)
    (hMram.rdmflg.trans h.ramRandom) (hMswp.rdmflg.trans h.swapRandom) (h.mm.trans hMm.symm)
    hUndecided, Or.inl ⟨rfl, rfl⟩, fun hNone => hMram.freeFpList.trans hNone, ?_⟩
  rw [List.append_nil, hPending]
  rfl

private theorem InCall.read {copy : PageCopy} {pgn vicpgn frame : Int} {cellidx : Nat}
    (h : InCall (.read copy pgn vicpgn frame cellidx) c d)
    (hStep : getpageStep junk c (.read copy pgn vicpgn frame cellidx) = some (u, loc', answer)) :
    ∃ answers v, Advances (.read copy pgn vicpgn frame cellidx) loc' answer c u d answers v := by
  simp only [getpageStep] at hStep
  split_ifs at hStep with hMore
  · have hEnds : ((memphyRead c.mram (cint ((copy.frames c pgn vicpgn frame).1 * pagingPagesz +
        cellidx))).ignoreCode junk).Ends fun mram =>
          c.mram.SameFrames mram ∧ mram.storage = c.mram.storage :=
      (memphyRead_ends _ _).ignoreCode
    split at hStep
    · rename_i data mram hRead
      rw [hRead] at hEnds
      obtain ⟨rfl, rfl, rfl⟩ : { c with mram := mram } = u ∧
          .write copy pgn vicpgn frame cellidx data = loc' ∧ none = answer := by simpa using hStep
      exact ⟨[], d, h.copying hEnds.1 .rfl rfl rfl id⟩
    · cases hStep
  · cases copy with
    | out =>
        obtain ⟨rfl, rfl, rfl⟩ : c = u ∧ .read .back pgn vicpgn frame 0 = loc' ∧ none = answer := by
          simpa using hStep
        exact ⟨[], d, h.copying .rfl .rfl rfl rfl id⟩
    | back =>
        obtain ⟨rfl, rfl, rfl⟩ : c = u ∧ .update pgn vicpgn frame = loc' ∧ none = answer := by
          simpa using hStep
        exact ⟨[], d, h.copying .rfl .rfl rfl rfl id⟩

private theorem InCall.write {copy : PageCopy} {pgn vicpgn frame : Int} {cellidx : Nat}
    {data : Byte} (h : InCall (.write copy pgn vicpgn frame cellidx data) c d)
    (hStep : getpageStep junk c (.write copy pgn vicpgn frame cellidx data) =
      some (u, loc', answer)) :
    ∃ answers v,
      Advances (.write copy pgn vicpgn frame cellidx data) loc' answer c u d answers v := by
  simp only [getpageStep] at hStep
  have hEnds : ((memphyWrite c.activeMswp (cint ((copy.frames c pgn vicpgn frame).2 *
      pagingPagesz + cellidx)) data).ignoreCode ()).Ends c.activeMswp.SameFrames :=
    (memphyWrite_ends _ _ _).ignoreCode
  split at hStep
  · rename_i value mp hWrite
    rw [hWrite] at hEnds
    obtain ⟨rfl, rfl, rfl⟩ : { c with activeMswp := mp } = u ∧
        .read copy pgn vicpgn frame (cellidx + 1) = loc' ∧ none = answer := by simpa using hStep
    exact ⟨[], d, h.copying .rfl hEnds rfl rfl id⟩
  · cases hStep

private theorem InCall.update {pgn vicpgn frame : Int} (h : InCall (.update pgn vicpgn frame) c d)
    (hStep : getpageStep junk c (.update pgn vicpgn frame) = some (u, loc', answer)) :
    ∃ answers v, Advances (.update pgn vicpgn frame) loc' answer c u d answers v := by
  have hLobit : (2 : Int) ^ pagingAddrFpnLobit = 256 := by decide
  have hZero : pagingFpn (pteSetFpn (c.mm.pgd pgn) (pagingFpn (c.mm.pgd vicpgn))) = 0 := by
    have hBounds := pagingFpn_bounds (c.mm.pgd vicpgn)
    rw [pagingFpn_pteSetFpn]
    omega
  simp only [getpageStep, setbit_pteSetFpn, hLobit] at hStep
  cases hStep
  refine ⟨[], d, h.copying .rfl .rfl rfl ?_ id⟩
  simp only [GetpageLoc.pending, hZero]

private theorem InCall.enlist {pgn : Int} {pte : BitVec 32} (h : InCall (.enlist pgn pte) c d)
    (hStep : getpageStep junk c (.enlist pgn pte) = some (u, loc', answer)) :
    ∃ answers v, Advances (.enlist pgn pte) loc' answer c u d answers v := by
  cases hLru : c.mm.lruPgn with
  | freed => simp [getpageStep, hLru] at hStep
  | nodes pages =>
      obtain ⟨rfl, rfl, rfl⟩ : c.setLru (.nodes (pgn :: pages.erase pgn)) = u ∧ .idle = loc' ∧
          some (some (pagingFpn pte)) = answer := by
        simpa [getpageStep, hLru, enlistPgnNode_nodes] using hStep
      refine ⟨[], d, .of_decided h.mram h.activeMswp h.ramRandom h.swapRandom ?_ id,
        Or.inl ⟨rfl, rfl⟩, id, rfl⟩
      simp only [h.mm, GetpageLoc.settled, Mm.enlisted, Caller.setLru, hLru]

/-- Every step of a call. -/
theorem InCall.advances (h : InCall loc c d)
    (hStep : getpageStep junk c loc = some (u, loc', answer)) (hBefore : c.mm.lruPgn ≠ .freed)
    (hAfter : u.mm.lruPgn ≠ .freed) : ∃ answers v, Advances loc loc' answer c u d answers v := by
  cases loc with
  | idle => cases hStep
  | enter => exact h.enter hStep hBefore
  | getFrame => exact h.getFrame hStep hBefore
  | findVictim => exact h.findVictim hStep hAfter
  | getSwapFrame => exact h.getSwapFrame hStep hBefore
  | read => exact h.read hStep
  | write => exact h.write hStep
  | update => exact h.update hStep
  | enlist => exact h.enlist hStep

end Step

namespace Getpages

/-- All processes, and the same processes with whole calls only. -/
def Agrees (s : Getpages Proc) (t : System Proc) : Prop :=
  ∀ proc, InCall (s.loc proc) (s.sys.caller proc) (t.caller proc)

section Run

variable {start s s' finish : Getpages Proc} {t : System Proc} {event : GetpageEvent Proc}
  {events more : List (GetpageEvent Proc)}

/-- The step of one process leaves the others as they were. -/
private theorem Agrees.move (h : s.Agrees t) {proc : Proc} {loc' : GetpageLoc}
    {answer : Option (Option Int)} {u v : Caller} {answers : List (Int × Option Int)}
    (hStep : Advances (s.loc proc) loc' answer (s.sys.caller proc) u (t.caller proc) answers v) :
    (s.move proc u loc').Agrees (t.put proc v) := by
  intro other
  rw [move_sys, move_loc]
  split_ifs with hSame
  · rw [hSame, System.caller_put, System.caller_put]
    exact hStep.inCall
  · have hOther := h other
    have hMm : (s.sys.put proc u).mm other = s.sys.mm other := by
      rw [System.put_mm, if_neg hSame]
    refine ⟨hStep.inCall.mram, hStep.inCall.activeMswp, hStep.inCall.ramRandom,
      hStep.inCall.swapRandom, ?_, ?_, fun hPast => hStep.exhausted (hOther.pastRam hPast), ?_⟩
    · simp only [System.caller_mm, hMm, System.put_mm, if_neg hSame]
      exact hOther.mm
    · simp only [System.caller_mm, hMm]
      exact hOther.undecided
    · simp only [System.caller_mm, hMm]
      exact hOther.victim

/-- What one step amounts to. -/
theorem Agrees.step (h : s.Agrees t) (step : Step s event s') (hBefore : s.Intact)
    (hAfter : s'.Intact) :
    ∃ calls t', Runs System.Answers t calls t' ∧ s'.Agrees t' ∧
      ∀ proc, (s.loc proc).pending ++ answersOf proc calls =
        answersOf proc event.returns?.toList ++ (s'.loc proc).pending := by
  cases step with
  | call proc pgn hLoc =>
      have hIdle := h proc
      rw [hLoc] at hIdle
      have hCall := hIdle.call pgn
      rw [← hLoc] at hCall
      have hMove := h.move hCall
      rw [System.put_caller] at hMove
      refine ⟨[], t, Runs.nil, hMove, fun other => ?_⟩
      rw [move_loc]
      split_ifs with hSame
      · rw [hSame, hLoc]
        rfl
      · simp [GetpageEvent.returns?]
  | @step junk u loc' answer proc hStep =>
      have hU : u.mm.lruPgn ≠ .freed := by
        have hKept := hAfter proc
        rwa [move_sys, System.put_mm_self] at hKept
      obtain ⟨answers, v, hAdvances⟩ := (h proc).advances hStep (hBefore proc) hU
      have hWhole : Runs System.Answers t (answers.map fun answer => (proc, answer))
          (t.put proc v) := by
        rcases hAdvances.whole with ⟨rfl, rfl⟩ | ⟨result, rfl, hCall⟩
        · rw [System.put_caller]
          exact Runs.nil
        · exact Runs.one ⟨v, hCall, rfl⟩
      refine ⟨_, _, hWhole, h.move hAdvances, fun other => ?_⟩
      rw [move_loc, answersOf_map, GetpageEvent.returns?, Option.toList_map, answersOf_map]
      split_ifs with hSame
      · rw [hSame]
        exact hAdvances.order
      · simp

/-- The same frames are free, and the processes outside of calls have the same memory. -/
structure ShowsAs (s : Getpages Proc) (t : System Proc) : Prop where
  mram : s.sys.mram.SameFrames t.mram
  activeMswp : s.sys.activeMswp.SameFrames t.activeMswp
  mm : ∀ proc, s.loc proc = .idle → t.mm proc = s.sys.mm proc

omit [DecidableEq Proc] in
theorem Agrees.showsAs [Nonempty Proc] (h : s.Agrees t) : s.ShowsAs t := by
  obtain ⟨proc⟩ := ‹Nonempty Proc›
  refine ⟨(h proc).mram, (h proc).activeMswp, fun other hIdle => ?_⟩
  have hMm := (h other).mm
  rwa [hIdle] at hMm

/-- Part of a run. -/
private theorem Agrees.run (h : s.Agrees t) (hIntact : s.Intact)
    (run : Runs (Keeping Step Intact) s events finish) :
    ∃ calls t', Runs System.Answers t calls t' ∧ (finish.Intact ∧ finish.Agrees t') ∧
      ∀ proc, (s.loc proc).pending ++ answersOf proc calls =
        answersOf proc (events.filterMap GetpageEvent.returns?) ++ (finish.loc proc).pending := by
  apply run.linearize GetpageEvent.returns? (fun s proc => (s.loc proc).pending)
    (fun s t => s.Intact ∧ s.Agrees t) ⟨hIntact, h⟩
  rintro s event s' t ⟨hBefore, h⟩ ⟨step, hAfter⟩
  obtain ⟨calls, t', hCalls, hAgrees, hOrder⟩ := h.step step hBefore hAfter
  exact ⟨calls, t', hCalls, ⟨hAfter, hAgrees⟩, hOrder⟩

/-- Calls of `pg_getpage` that overlap amount to whole calls one after the other, whatever the
order of their accesses, as far as frames, page tables and lists of recent pages go: each process
gets the same answers in the same order, and a call that returns before a moment of the run
comes before those that begin after it. -/
theorem getpages_linearize [Nonempty Proc] (hIdle : ∀ proc, start.loc proc = .idle)
    (hRam : start.sys.mram.rdmflg = true) (hSwap : start.sys.activeMswp.rdmflg = true)
    (hIntact : start.Intact) (early : Runs (Keeping Step Intact) start events s)
    (late : Runs (Keeping Step Intact) s more finish) :
    ∃ calls t calls' t', Runs System.Answers start.sys calls t ∧ Runs System.Answers t calls' t' ∧
      s.ShowsAs t ∧ finish.ShowsAs t' ∧
      ∀ proc,
        answersOf proc calls =
          answersOf proc (events.filterMap GetpageEvent.returns?) ++ (s.loc proc).pending ∧
        (s.loc proc).pending ++ answersOf proc calls' =
          answersOf proc (more.filterMap GetpageEvent.returns?) ++ (finish.loc proc).pending := by
  have hStart : start.Agrees start.sys := by
    intro proc
    rw [hIdle]
    exact .of_decided .rfl .rfl hRam hSwap rfl id
  obtain ⟨calls, t, hCalls, ⟨hMiddle, hAgrees⟩, hOrder⟩ := hStart.run hIntact early
  obtain ⟨calls', t', hCalls', ⟨-, hAgrees'⟩, hOrder'⟩ := hAgrees.run hMiddle late
  refine ⟨calls, t, calls', t', hCalls, hCalls', hAgrees.showsAs, hAgrees'.showsAs,
    fun proc => ⟨?_, hOrder' proc⟩⟩
  have hFirst := hOrder proc
  rwa [hIdle] at hFirst

/-- Two processes ask for a page. The one that asks last gets the first frame, and has its answer
pending when the run is cut. -/
theorem getpages_linearize_two : ∃ (s finish : Getpages Bool) (t t' : System Bool)
    (calls calls' : List (Bool × Int × Option Int)),
      Runs System.Answers (System.initial 512 1024) calls t ∧ Runs System.Answers t calls' t' ∧
        s.ShowsAs t ∧ finish.ShowsAs t' ∧ answersOf false calls = [(0, some 0)] ∧
        answersOf true calls' = [(0, some 0)] := by
  let start : Getpages Bool := ⟨System.initial 512 1024, fun _ => .idle⟩
  let next : Getpages Bool → GetpageEvent Bool → Option (Getpages Bool) := fun s event =>
    (getpagesStep 0 s event).filter fun s =>
      decide ((s.sys.mm true).lruPgn ≠ .freed) && decide ((s.sys.mm false).lruPgn ≠ .freed)
  have hNext : ∀ s event s', next s event = some s' → Keeping Step Intact s event s' := by
    intro s event s' h
    obtain ⟨hStep, hKept⟩ := Option.filter_eq_some_iff.mp h
    rw [Bool.and_eq_true, decide_eq_true_eq, decide_eq_true_eq] at hKept
    refine ⟨getpagesStep_step hStep, fun proc => ?_⟩
    cases proc with
    | true => exact hKept.1
    | false => exact hKept.2
  have hEval : ((exec next start [.call true 0, .call false 0, .step true none, .step false none,
      .step false none]).any fun s =>
        decide ((s.loc true).pending = [] ∧ (s.loc false).pending = [(0, some 0)]) &&
          (exec next s [.step true none, .step true (some (0, some 0)),
            .step false (some (0, some 0))]).any fun finish =>
              decide ((finish.loc true).pending = [])) = true := by
    decide +kernel
  obtain ⟨s, hEarly, hTest⟩ := (Option.any_eq_true _ _).mp hEval
  rw [Bool.and_eq_true, decide_eq_true_eq] at hTest
  obtain ⟨⟨hTrue, hFalse⟩, hMore⟩ := hTest
  obtain ⟨finish, hLate, hDone⟩ := (Option.any_eq_true _ _).mp hMore
  rw [decide_eq_true_eq] at hDone
  obtain ⟨calls, t, calls', t', hCalls, hCalls', hShows, hShows', hOrder⟩ :=
    getpages_linearize (fun _ => rfl : ∀ proc, start.loc proc = .idle) rfl rfl
      (fun _ h => by cases h) (Runs.of_exec hEarly hNext) (Runs.of_exec hLate hNext)
  refine ⟨s, finish, t, t', calls, calls', hCalls, hCalls', hShows, hShows', ?_, ?_⟩
  · rw [(hOrder false).1, hFalse]
    rfl
  · have hLast := (hOrder true).2
    rwa [hTrue, hDone] at hLast

end Run

end Getpages

end Btlos
