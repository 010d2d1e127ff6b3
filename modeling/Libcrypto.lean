import Libcrypto.Bytes
import Libcrypto.Memory
import Libcrypto.Evp
import Libcrypto.Rsa.Mgf1
import Libcrypto.Rsa.EmeOaep
import Libcrypto.Rsa.OaepAdd
import Libcrypto.Rsa.OaepCheck
import Libcrypto.Rsa.OaepLeak
import Libcrypto.Rsa.RoundTrip
import Libcrypto.Sm2.Ec
import Libcrypto.Sm2.Verify
import Libcrypto.Sm2.Sign
import Libcrypto.Sm2.Der
