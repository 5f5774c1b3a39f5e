import Mathlib.Init

/-!
# Error numbers (`core/errno.h`)

The kernel returns a failure as the negated number.
-/

namespace Kern

def EINVAL : Int := 2
def ENOMEM : Int := 3
def EBADF : Int := 5
def EDISK : Int := 6
def ENOENT : Int := 9
def EACCESS : Int := 10
def ETIME : Int := 15
def ENOPROC : Int := 18
def EFULL : Int := 19
def ERANGE : Int := 21
def ENOEXIST : Int := 22
def EHANG : Int := 23
def ETOOSMALL : Int := 24
def ENOSPC : Int := 25
def ENOTDIR : Int := 26
def EISDIR : Int := 27
def ENOTEMPTY : Int := 28
def EEXISTS : Int := 29
def ELOOP : Int := 30
def ENAMETOOLONG : Int := 31

end Kern
