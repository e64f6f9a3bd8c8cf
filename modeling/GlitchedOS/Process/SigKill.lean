/-
`SIGKILL`.  No handler and no mask keeps it from a task: `sigaction` and `sigprocmask` see
to it in every run.  But `deliver_signals` looks at nothing while a handler runs, so a task
that stays in a handler is never ended; and a kernel worker has no parent for `exit` to tell.
-/
import GlitchedOS.Lib.Chain
import GlitchedOS.Process.ExitStatus

namespace GlitchedOS

variable {k k' d : Kernel} {ops : List SignalOp}

/-- The states in which a step from `k` calls `deliver_signals`: on the way back to user code,
for the task that `switch_task` has chosen, and for a handler that returns. -/
inductive DeliveryPoint (k : Kernel) : Kernel → Prop
  | leaving (h : k.switching = false) : DeliveryPoint k k
  | switching {fuel rr : Nat} {next : Option Nat}
      (h : nextLoop k k.rr fuel k.rr = .ok (next, rr)) :
      DeliveryPoint k (chooseTask k (next.getD idleTask) rr)
  | returning (h : k.switching = false) (hin : k.currentTask.inSignal = true) :
      DeliveryPoint k (handlerLeft k)

theorem DeliveryPoint.alike (h : DeliveryPoint k d) : Alike k d := by
  cases h with
  | leaving _ => exact .refl k
  | @switching fuel rr next _ => exact .of_calm (.chooseTask k (next.getD idleTask) rr)
  | returning _ _ => exact .of_calm (.handlerLeft k)

end GlitchedOS
