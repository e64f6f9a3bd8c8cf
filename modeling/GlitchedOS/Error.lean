/-
The error codes of `error.h`, as the calls return them.
-/
import Mathlib.Init

namespace GlitchedOS

def eNoent : Int := -2
def eIntr : Int := -4
def eNoexec : Int := -8
def eBadf : Int := -9
def eSrch : Int := -3
def ePerm : Int := -1
def eExist : Int := -17
def eNotdir : Int := -20
def eIsdir : Int := -21
def eInval : Int := -22
def eNfile : Int := -23
def eMfile : Int := -24
def eNosys : Int := -38
def eBusy : Int := -16
def eIo : Int := -5
def eAgain : Int := -11
def eNodev : Int := -19
def eXdev : Int := -18
def eNospc : Int := -28
def eRofs : Int := -30
def eNametoolong : Int := -36
def eNotempty : Int := -39
def eHostunreach : Int := -113

end GlitchedOS
