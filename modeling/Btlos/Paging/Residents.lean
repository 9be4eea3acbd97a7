import Btlos.Library.Recency
import Btlos.Paging.System

/-! The list of recently used pages compared with the page table. The list keeps
the order of the requests in every run, but the entries of the pages on it are
present only if RAM never had a free frame to give. -/
namespace Btlos

open Transition

/-- A process together with its requests for pages so far and their return codes. -/
structure Requested where
  caller : Caller
  calls : List (Int × Bool)

/-- A process on zero-filled memory that has made no request, on any two devices. -/
def Requested.initial (mram activeMswp : Memphy) : Requested :=
  ⟨⟨initMm .zero, mram, activeMswp⟩, []⟩

/-- A request that returns. The byte that an uninitialised variable holds is open. -/
def Request (s : Requested) (label : Int × Bool) (t : Requested) : Prop :=
  (∃ junk, (pgGetpage junk label.1 s.caller).code? = some (label.2, t.caller)) ∧
    t.calls = s.calls ++ [label]

/-- The same as a function, for a given byte. -/
def request (junk : Byte) (s : Requested) (label : Int × Bool) : Option Requested :=
  ((pgGetpage junk label.1 s.caller).code?.filter fun result => result.1 = label.2).map
    fun result => ⟨result.2, s.calls ++ [label]⟩

theorem request_step {junk : Byte} {s t : Requested} {label : Int × Bool}
    (h : request junk s label = some t) : Request s label t := by
  obtain ⟨ok, t', hCode, hTest, rfl⟩ := Outcome.code?_of_filter h
  obtain rfl := of_decide_eq_true hTest
  exact ⟨⟨junk, hCode⟩, rfl⟩

/-- The page has an entry that is present. -/
def Caller.Resident (s : Caller) (pgn : Int) : Prop :=
  0 ≤ pgn ∧ pgn < pagingMaxPgn ∧ pagingPagePresent (s.mm.pgd pgn) = true

/-- The first page was obtained after the last time that the second one was. -/
def MoreRecent (calls : List (Int × Bool)) (pgn other : Int) : Prop :=
  Since (· = (pgn, true)) (· = (other, true)) calls

/-- The list of pages and the page table agree, and the next victim is the page
that should go. -/
structure ResidentsAgree (s : Requested) : Prop where
  listed : ∃ pages, s.caller.mm.lruPgn = .nodes pages ∧ pages.Nodup ∧
    (∀ pgn, pgn ∈ pages ↔ s.caller.Resident pgn) ∧ pages.Pairwise (MoreRecent s.calls)
  victim : ∀ pgn victim lruPgn, 0 ≤ pgn → pgn < pagingMaxPgn → ¬ s.caller.Resident pgn →
    s.caller.mram.freeFpList = [] → findVictimPage s.caller.mm.lruPgn = .ok victim lruPgn →
    s.caller.Resident victim ∧ victim ≠ pgn ∧
      ∀ other, s.caller.Resident other → other ≠ victim → MoreRecent s.calls other victim

/-- The request cannot take a free frame: there is none, or the page number is
out of range. -/
def TakesNoFrame (s : Requested) (label : Int × Bool) : Prop :=
  (label.1 < 0 ∨ label.1 ≥ pagingMaxPgn) ∨ s.caller.mram.freeFpList = []

/-! The order of the list -/

/-- The list holds each page once, the most recent first. A head pointer on a
freed node has no list behind it. -/
def Requested.Ordered (s : Requested) : Prop :=
  ∀ pages, s.caller.mm.lruPgn = .nodes pages → pages.Nodup ∧ pages.Pairwise (MoreRecent s.calls)

theorem moreRecent_eq : MoreRecent = Recency.Later fun pgn => (pgn, true) := rfl

theorem MoreRecent.concat {calls : List (Int × Bool)} {label : Int × Bool} {pgn other : Int}
    (h : MoreRecent calls pgn other) (hOther : label ≠ (other, true)) :
    MoreRecent (calls ++ [label]) pgn other := by
  rw [moreRecent_eq] at h ⊢
  exact h.concat hOther

/-- Moving the requested page to the front keeps the order. -/
theorem moreRecent_enlist {calls : List (Int × Bool)} {pages : List Int} (hNodup : pages.Nodup)
    (hOrder : pages.Pairwise (MoreRecent calls)) (pgn : Int) :
    (pgn :: pages.erase pgn).Pairwise (MoreRecent (calls ++ [(pgn, true)])) := by
  rw [moreRecent_eq] at hOrder ⊢
  exact Recency.later_moveToFront (fun _ _ h => (Prod.mk.inj h).1) hNodup hOrder pgn

theorem Requested.Ordered.step {s t : Requested} {label : Int × Bool} (h : s.Ordered)
    (step : Request s label t) : t.Ordered := by
  obtain ⟨⟨junk, hCode⟩, hCalls⟩ := step
  obtain ⟨pgn, ok⟩ := label
  have hEnd := pgGetpage_cases junk pgn s.caller
  simp only at hCode
  generalize pgGetpage junk pgn s.caller = call at hEnd hCode
  -- a failed request only takes pages off the list
  have hFailed : ∀ pages pages' : List Int, s.caller.mm.lruPgn = .nodes pages → ok = false →
      pages'.Sublist pages → pages'.Nodup ∧ pages'.Pairwise (MoreRecent t.calls) := by
    intro pages pages' hLru hOk hSublist
    obtain ⟨hNodup, hOrder⟩ := h pages hLru
    refine ⟨hNodup.sublist hSublist, (hOrder.sublist hSublist).imp fun hRecent => ?_⟩
    rw [hCalls]
    exact hRecent.concat (by simp [hOk])
  -- a request that succeeds moves its page to the front
  have hOk : ∀ pages pages' : List Int, s.caller.mm.lruPgn = .nodes pages → ok = true →
      pages'.Sublist pages → (pgn :: pages'.erase pgn).Nodup ∧
        (pgn :: pages'.erase pgn).Pairwise (MoreRecent t.calls) := by
    intro pages pages' hLru hOk hSublist
    obtain ⟨hNodup, hOrder⟩ := h pages hLru
    rw [hCalls, hOk]
    exact ⟨nodup_enlist (hNodup.sublist hSublist) pgn,
      moreRecent_enlist (hNodup.sublist hSublist) (hOrder.sublist hSublist) pgn⟩
  intro pages' hPages'
  cases hEnd with
  | undefined => simp at hCode
  | badPage | noVictim =>
      obtain ⟨rfl, hState⟩ : false = ok ∧ s.caller = t.caller := by simpa using hCode
      rw [← hState] at hPages'
      exact hFailed pages' pages' hPages' rfl (List.Sublist.refl pages')
  | noSwapFrame pages victim _ _ _ hLru =>
      obtain ⟨rfl, hState⟩ : false = ok ∧
        s.caller.setLru (if pages = [] then .freed else .nodes pages) = t.caller := by
          simpa using hCode
      rw [← hState] at hPages'
      simp only [Caller.setLru] at hPages'
      split_ifs at hPages'
      obtain rfl : pages = pages' := by simpa using hPages'
      exact hFailed _ pages hLru rfl (List.sublist_append_left pages [victim])
  | resident pages _ _ hLru =>
      obtain ⟨rfl, hState⟩ : true = ok ∧
        s.caller.setLru (.nodes (pgn :: pages.erase pgn)) = t.caller := by simpa using hCode
      rw [← hState] at hPages'
      obtain rfl := PgnList.nodes.inj hPages'
      exact hOk pages pages hLru rfl (List.Sublist.refl pages)
  | freeFrame frame rest pages _ _ _ hLru =>
      simp only [Outcome.code?_ok, Option.some.injEq, Prod.mk.injEq] at hCode
      rw [← hCode.2] at hPages'
      obtain rfl := PgnList.nodes.inj hPages'
      exact hOk pages pages hLru hCode.1.symm (List.Sublist.refl pages)
  | replaced pages victim frame rest mram mswp _ _ _ hLru =>
      simp only [Outcome.code?_ok, Option.some.injEq, Prod.mk.injEq] at hCode
      rw [← hCode.2] at hPages'
      obtain rfl := PgnList.nodes.inj hPages'
      exact hOk _ pages hLru hCode.1.symm (List.sublist_append_left pages [victim])

/-- In every run the list holds each page once, the most recent first. -/
theorem ordered_run {mram activeMswp : Memphy} {labels : List (Int × Bool)} {s : Requested}
    (run : Runs Request (Requested.initial mram activeMswp) labels s) : s.Ordered := by
  refine run.invariant Requested.Ordered ?_ fun _ _ _ h step => h.step step
  intro pages hPages
  obtain rfl : [] = pages := PgnList.nodes.inj hPages
  exact ⟨List.nodup_nil, List.Pairwise.nil⟩

/-! The page table -/

/-- No page has been listed and no entry written. -/
structure Requested.Blank (s : Requested) : Prop where
  pgd : s.caller.mm.pgd = fun _ => 0#32
  lruPgn : s.caller.mm.lruPgn = .nodes []

theorem Requested.Blank.not_resident {s : Requested} (h : s.Blank) (pgn : Int) :
    ¬ s.caller.Resident pgn := by
  rintro ⟨-, -, hPresent⟩
  rw [h.pgd] at hPresent
  simp at hPresent

theorem Requested.Blank.agree {s : Requested} (h : s.Blank) : ResidentsAgree s := by
  constructor
  · refine ⟨[], h.lruPgn, List.nodup_nil, fun pgn => ?_, List.Pairwise.nil⟩
    simp [h.not_resident pgn]
  · intro pgn victim lruPgn _ _ _ _ hVictim
    rw [h.lruPgn] at hVictim
    simp at hVictim

/-- A request from there changes nothing, or lists a page that is not present. -/
theorem Requested.Blank.step {s t : Requested} {label : Int × Bool} (h : s.Blank)
    (step : Request s label t) :
    (TakesNoFrame s label → t.Blank) ∧ (¬ TakesNoFrame s label → ¬ ResidentsAgree t) := by
  obtain ⟨⟨junk, hCode⟩, -⟩ := step
  obtain ⟨pgn, ok⟩ := label
  have hEnd := pgGetpage_cases junk pgn s.caller
  simp only at hCode
  generalize pgGetpage junk pgn s.caller = call at hEnd hCode
  have hAbsent : pagingPagePresent (s.caller.mm.pgd pgn) = false := by
    rw [h.pgd]
    exact pagingPagePresent_zero
  cases hEnd with
  | undefined => simp at hCode
  | badPage hPgn =>
      obtain ⟨-, hState⟩ : false = ok ∧ s.caller = t.caller := by simpa using hCode
      refine ⟨fun _ => ⟨?_, ?_⟩, fun hTakes => absurd (Or.inl hPgn) hTakes⟩
      · rw [← hState]
        exact h.pgd
      · rw [← hState]
        exact h.lruPgn
  | noVictim _ _ hFrame =>
      obtain ⟨-, hState⟩ : false = ok ∧ s.caller = t.caller := by simpa using hCode
      refine ⟨fun _ => ⟨?_, ?_⟩, fun hTakes => absurd (Or.inr hFrame) hTakes⟩
      · rw [← hState]
        exact h.pgd
      · rw [← hState]
        exact h.lruPgn
  | resident _ _ hPresent => simp [hAbsent] at hPresent
  | noSwapFrame pages victim _ _ _ hLru => simp [h.lruPgn] at hLru
  | replaced pages victim frame rest mram mswp _ _ _ hLru => simp [h.lruPgn] at hLru
  | freeFrame frame rest pages hPgn _ hFrame hLru =>
      refine ⟨fun hTakes => ?_, fun _ hAgree => ?_⟩
      · rcases hTakes with hBad | hNone
        · simp only at hBad
          omega
        · simp [hFrame] at hNone
      · obtain ⟨pages', hPages', -, hListed, -⟩ := hAgree.listed
        simp only [Outcome.code?_ok, Option.some.injEq, Prod.mk.injEq] at hCode
        rw [← hCode.2] at hPages' hListed
        obtain rfl := PgnList.nodes.inj hPages'
        obtain ⟨-, -, hPresent⟩ := (hListed pgn).mp List.mem_cons_self
        exact absurd (hAbsent.symm.trans hPresent) (by decide)

/-- In a run, the list and the page table agree after every request exactly when
no request takes a free frame of RAM. -/
theorem residentsAgree_iff (mram activeMswp : Memphy) (labels : List (Int × Bool))
    (s : Requested) :
    Runs (Keeping Request ResidentsAgree) (Requested.initial mram activeMswp) labels s ↔
      Runs (Guarded Request TakesNoFrame) (Requested.initial mram activeMswp) labels s := by
  have hStart : (Requested.initial mram activeMswp).Blank := ⟨rfl, rfl⟩
  apply Runs.keeping_iff_guarded Requested.Blank hStart.agree hStart
  · intro s label t hBlank _ step hAgree
    apply (hBlank.step step).1
    by_contra hTakes
    exact (hBlank.step step).2 hTakes hAgree
  · intro s label t hBlank _ step
    refine ⟨fun hAgree => ?_, fun hTakes => ((hBlank.step step).1 hTakes).agree⟩
    by_contra hTakes
    exact (hBlank.step step).2 hTakes hAgree

/-- The first page that gets a frame is listed, and its entry is not present. -/
theorem listed_page_absent : ∃ s,
    Runs Request (Requested.initial (initMemphy .zero 1024 1) (initMemphy .zero 4096 1))
      [(0, true)] s ∧ ¬ ResidentsAgree s := by
  have hEval : (exec (request 0)
      (Requested.initial (initMemphy .zero 1024 1) (initMemphy .zero 4096 1))
      [(0, true)]).any (fun s => s.caller.mm.lruPgn = .nodes [0] ∧ s.caller.mm.pgd 0 = 0#32) =
        true := by decide +kernel
  obtain ⟨s, hRun, hState⟩ := (Option.any_eq_true _ _).mp hEval
  obtain ⟨hLru, hEntry⟩ : s.caller.mm.lruPgn = .nodes [0] ∧ s.caller.mm.pgd 0 = 0#32 :=
    of_decide_eq_true hState
  refine ⟨s, Runs.of_exec hRun fun _ _ _ h => request_step h, fun hAgree => ?_⟩
  obtain ⟨pages, hPages, -, hListed, -⟩ := hAgree.listed
  rw [hLru] at hPages
  obtain rfl := PgnList.nodes.inj hPages
  obtain ⟨-, -, hPresent⟩ := (hListed 0).mp (by simp)
  rw [hEntry] at hPresent
  simp at hPresent

end Btlos
